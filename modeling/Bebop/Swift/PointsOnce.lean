import Bebop.Lib.Guarded
import Bebop.Swift.InsertionPoints

/-!
# Bebop — how often an insertion point stands in generated Swift

The insertion points of a file are those of the definitions that it has declarations of,
at any depth, and two more (`points_generate`). A definition's points have its own name,
without the names of what it is nested in; so two of one name and one sort share them.
-/

namespace Bebop.Swift

open Bebop.Compiler Occurrences

/-! ## The comments -/

section

variable {p q : InsertionPoint}

def IsName (name : Text) : Prop := ∀ c ∈ name, c.isAlphanum ∨ c = '_'

instance (name : Text) : Decidable (IsName name) := List.decidableBAll _ name

def InsertionPoint.Named : InsertionPoint → Prop
  | .imports | .eof => True
  | .scope _ defName => IsName defName

theorem plain_kind (kind : PointKind) : ∀ c ∈ kind.text, c ≠ '/' ∧ c ≠ ')' ∧ c ≠ '\n' ∧ c ≠ ':' := by
  have hall : (kind.text.all fun c => c ≠ '/' ∧ c ≠ ')' ∧ c ≠ '\n' ∧ c ≠ ':') = true := by
    cases kind <;> decide
  exact fun c hc => of_decide_eq_true (List.all_eq_true.mp hall c hc)

theorem plain_name {name : Text} (h : IsName name) : ∀ c ∈ name, c ≠ '/' ∧ c ≠ ')' ∧ c ≠ '\n' := by
  intro c hc
  refine ⟨?_, ?_, ?_⟩
  · rintro rfl
    exact absurd (h _ hc) (by decide)
  · rintro rfl
    exact absurd (h _ hc) (by decide)
  · rintro rfl
    exact absurd (h _ hc) (by decide)

theorem InsertionPoint.Named.plain (h : p.Named) : ∀ c ∈ p.text, c ≠ '/' ∧ c ≠ ')' ∧ c ≠ '\n' := by
  cases p with
  | imports =>
    have hall : (InsertionPoint.imports.text.all fun c => c ≠ '/' ∧ c ≠ ')' ∧ c ≠ '\n') = true := by
      decide
    exact fun c hc => of_decide_eq_true (List.all_eq_true.mp hall c hc)
  | eof =>
    have hall : (InsertionPoint.eof.text.all fun c => c ≠ '/' ∧ c ≠ ')' ∧ c ≠ '\n') = true := by
      decide
    exact fun c hc => of_decide_eq_true (List.all_eq_true.mp hall c hc)
  | scope kind defName =>
    intro c hc
    rcases List.mem_append.mp hc with hkind | hname
    · obtain ⟨hslash, hclose, hline, -⟩ := plain_kind kind c hkind
      exact ⟨hslash, hclose, hline⟩
    · rcases List.mem_cons.mp hname with rfl | hname
      · decide
      · exact plain_name h c hname

def PointKind.all : List PointKind :=
  [.decodeStart, .decodeSwitch, .decodeEnd, .encodeStart, .encodeSwitch, .encodeEnd, .structScope, .messageScope,
    .unionScope, .enumScope, .serviceScope]

theorem PointKind.mem_all (kind : PointKind) : kind ∈ PointKind.all := by
  cases kind <;> decide

theorem kindText_inj {kind kind' : PointKind} (h : kind.text = kind'.text) : kind = kind' := by
  have hnodup : (PointKind.all.map PointKind.text).Nodup := by decide
  exact List.inj_on_of_nodup_map hnodup kind.mem_all kind'.mem_all h

theorem InsertionPoint.text_inj (h : p.text = q.text) : p = q := by
  have hsplit (kind : PointKind) (name : Text) : (kind.text ++ ':' :: name).takeWhile (· ≠ ':') = kind.text := by
    have hall : ∀ c ∈ kind.text, decide (c ≠ ':') = true := fun c hc => decide_eq_true (plain_kind kind c hc).2.2.2
    rw [List.takeWhile_append_of_pos hall, List.takeWhile_cons_of_neg (by decide), List.append_nil]
  have hcolon (kind : PointKind) (name : Text) : ':' ∈ (InsertionPoint.scope kind name).text :=
    List.mem_append_right _ List.mem_cons_self
  have himports : ':' ∉ InsertionPoint.imports.text := by decide
  have heof : ':' ∉ InsertionPoint.eof.text := by decide
  cases p with
  | imports =>
    cases q with
    | imports => rfl
    | eof => exact absurd h (by decide)
    | scope kind name => exact absurd (h ▸ hcolon kind name) himports
  | eof =>
    cases q with
    | imports => exact absurd h (by decide)
    | eof => rfl
    | scope kind name => exact absurd (h ▸ hcolon kind name) heof
  | scope kind name =>
    cases q with
    | imports => exact absurd (h ▸ hcolon kind name) himports
    | eof => exact absurd (h ▸ hcolon kind name) heof
    | scope kind' name' =>
      have hkind : kind.text = kind'.text := by
        rw [← hsplit kind name, ← hsplit kind' name']
        exact congrArg _ h
      obtain rfl := kindText_inj hkind
      have hname := List.append_cancel_left h
      rw [(List.cons.inj hname).2]

theorem twofold_marker (h : p.Named) : Twofold '/' (marker p) := by
  have hopening : ∀ j < opening.length, 2 ≤ j → opening[j]? ≠ some '/' := by decide
  refine ⟨rfl, rfl, fun j hj hslash => ?_, ?_⟩
  · unfold marker at hslash
    rw [List.append_assoc] at hslash
    by_cases hlt : j < opening.length
    · rw [List.getElem?_append_left hlt] at hslash
      exact hopening j hlt hj hslash
    · rw [List.getElem?_append_right (Nat.le_of_not_lt hlt)] at hslash
      rcases List.mem_append.mp (List.mem_of_getElem? hslash) with hpoint | hend
      · exact (h.plain _ hpoint).1 rfl
      · exact absurd (List.mem_singleton.mp hend) (by decide)
  · have hlength : opening.length = 27 := by decide
    unfold marker
    simp only [List.length_append, hlength]
    omega

theorem marker_prefix_iff (hp : p.Named) (hq : q.Named) : marker p <+: marker q ↔ p = q := by
  constructor
  · intro h
    unfold marker at h
    rw [List.append_assoc, List.append_assoc, List.prefix_append_right_inj] at h
    have hclose : ')' ∉ q.text := fun hmem => (hq.plain _ hmem).2.1 rfl
    have hsplit {x : Text} (hx : ')' ∉ x) (rest : Text) : (x ++ ')' :: rest).takeWhile (· ≠ ')') = x := by
      have hall : ∀ c ∈ x, decide (c ≠ ')') = true := fun c hc => decide_eq_true fun heq => hx (heq ▸ hc)
      rw [List.takeWhile_append_of_pos hall, List.takeWhile_cons_of_neg (by decide), List.append_nil]
    obtain ⟨rest, hrest⟩ := h
    rw [List.append_assoc] at hrest
    refine InsertionPoint.text_inj ?_
    rw [← hsplit (fun hmem => (hp.plain _ hmem).2.1 rfl) rest, ← hsplit hclose []]
    exact congrArg _ hrest
  · rintro rfl
    exact List.prefix_rfl

theorem newline_not_mem_marker (h : p.Named) : '\n' ∉ marker p := by
  intro hmem
  unfold marker at hmem
  rcases List.mem_append.mp hmem with hmem | hend
  · rcases List.mem_append.mp hmem with hopening | hpoint
    · exact absurd hopening (by decide)
    · exact (h.plain _ hpoint).2.2 rfl
  · exact absurd (List.mem_singleton.mp hend) (by decide)

theorem count_pad {pattern : Text} (hne : pattern ≠ []) (hhead : pattern.head? = some '/') (pad : Nat) (t : Text) :
    count pattern (List.replicate pad ' ' ++ t) = count pattern t := by
  induction pad with
  | zero => rfl
  | succ pad ih =>
    rw [List.replicate_succ, List.cons_append, count_cons_of_ne hne, ih]
    rw [hhead]
    decide

end

/-! ## Lines -/

section

variable {lines lines' : Lines} {texts : List Text} {p : InsertionPoint}

@[simp] theorem points_append : points (lines ++ lines') = points lines ++ points lines' := List.filterMap_append

@[simp] theorem points_code : points (code texts) = [] := by
  unfold points code
  rw [List.filterMap_map]
  exact List.filterMap_eq_nil_iff.mpr fun _ _ => rfl

@[simp] theorem points_point (kind : PointKind) (defName : Text) : points (point kind defName) = [.scope kind defName] := rfl

@[simp] theorem points_indent : points (indent lines) = points lines := by
  unfold points indent
  rw [List.filterMap_map]
  refine List.filterMap_congr fun line _ => ?_
  cases line <;> rfl

@[simp] theorem points_block (head : List Text) : points (block head lines) = points lines := by
  unfold block
  simp

@[simp] theorem points_paragraphs (parts : List Lines) : points (paragraphs parts) = parts.flatMap points := by
  induction parts with
  | nil => rfl
  | cons part parts ih =>
    cases parts with
    | nil => simp [paragraphs]
    | cons next parts =>
      unfold paragraphs at ih ⊢
      rw [List.intercalate_cons_cons, points_append, points_append, points_code, ih]
      simp

@[simp] theorem points_typeDeclaration (head : List Text) (members nested : List Lines) (scope : PointKind) (defName : Text) :
    points (typeDeclaration head members nested scope defName) =
      members.flatMap points ++ nested.flatMap points ++ [.scope scope defName] := by
  unfold typeDeclaration
  simp [List.flatMap_map]

@[simp] theorem flatMap_points_code (parts : List (List Text)) : (parts.map code).flatMap points = [] := by
  rw [List.flatMap_map, List.flatMap_eq_nil_iff]
  exact fun _ _ => points_code

def Calm (t : Text) : Prop := count opening t = 0

def Line.Quiet : Line → Prop
  | .point _ _ => True
  | .code t => Calm t

/-- The lines that are no insertion points quote none. -/
def Quiet (lines : Lines) : Prop := ∀ line ∈ lines, line.Quiet

@[simp] theorem quiet_append : Quiet (lines ++ lines') ↔ Quiet lines ∧ Quiet lines' := List.forall_mem_append

@[simp] theorem quiet_code : Quiet (code texts) ↔ ∀ t ∈ texts, Calm t := List.forall_mem_map

@[simp] theorem quiet_point (kind : PointKind) (defName : Text) : Quiet (point kind defName) :=
  List.forall_mem_singleton.mpr trivial

theorem calm_nil : Calm [] := rfl

theorem calm_brace : Calm ['}'] := by
  unfold Calm
  decide

@[simp] theorem quiet_indent : Quiet (indent lines) ↔ Quiet lines := by
  have hline (line : Line) : (indentLine line).Quiet ↔ line.Quiet := by
    cases line with
    | point pad p => exact Iff.rfl
    | code t =>
      show Calm (if t = [] then [] else "    ".toList ++ t) ↔ Calm t
      split
      · rename_i hnil
        rw [hnil]
      · unfold Calm
        have hpad : count opening (List.replicate 4 ' ' ++ t) = count opening t :=
          count_pad (by decide) (by decide) 4 t
        exact Eq.congr_left hpad
  unfold Quiet indent
  rw [List.forall_mem_map]
  exact forall₂_congr fun line _ => hline line

@[simp] theorem quiet_block (head : List Text) : Quiet (block head lines) ↔ (∀ t ∈ head, Calm t) ∧ Quiet lines := by
  unfold block
  simp [calm_brace]

@[simp] theorem quiet_paragraphs (parts : List Lines) : Quiet (paragraphs parts) ↔ ∀ part ∈ parts, Quiet part := by
  induction parts with
  | nil => exact iff_of_true (fun _ h => (by cases h)) fun _ h => (by cases h)
  | cons part parts ih =>
    cases parts with
    | nil => simp [paragraphs]
    | cons next parts =>
      unfold paragraphs at ih ⊢
      rw [List.intercalate_cons_cons, quiet_append, quiet_append, ih, quiet_code, List.forall_mem_singleton,
        List.forall_mem_cons (a := part)]
      exact ⟨fun h => ⟨h.1.1, h.2⟩, fun h => ⟨⟨h.1, calm_nil⟩, h.2⟩⟩

@[simp] theorem quiet_typeDeclaration (head : List Text) (members nested : List Lines) (scope : PointKind) (defName : Text) :
    Quiet (typeDeclaration head members nested scope defName) ↔
      (∀ t ∈ head, Calm t) ∧ (∀ member ∈ members, Quiet member) ∧ ∀ decl ∈ nested, Quiet decl := by
  unfold typeDeclaration
  simp [calm_brace, or_imp, forall_and]

theorem count_text (hquiet : Quiet lines) (hnamed : ∀ q ∈ points lines, q.Named) (hp : p.Named) :
    count (marker p) (text lines) = (points lines).count p := by
  have hne := (twofold_marker hp).ne_nil
  unfold text
  rw [count_intercalate hne (newline_not_mem_marker hp)]
  induction lines with
  | nil => rfl
  | cons line lines ih =>
    have hrest := ih (fun l hl => hquiet l (List.mem_cons_of_mem _ hl))
    cases line with
    | point pad q =>
      have hq : q.Named := hnamed q List.mem_cons_self
      have hone : count (marker p) (List.replicate pad ' ' ++ marker q) = if q = p then 1 else 0 := by
        rw [count_pad hne rfl, (twofold_marker hq).count_eq (twofold_marker hp)]
        exact if_congr ((marker_prefix_iff hp hq).trans eq_comm) rfl rfl
      have hpoints : points (.point pad q :: lines) = q :: points lines := rfl
      rw [hpoints] at hnamed ⊢
      rw [List.map_cons, List.map_cons, List.sum_cons, hrest fun q' h => hnamed q' (List.mem_cons_of_mem _ h),
        List.count_cons]
      show count (marker p) (List.replicate pad ' ' ++ marker q) + _ = _
      rw [hone, Nat.add_comm]
      simp only [beq_iff_eq]
    | code t =>
      have hcalm : Calm t := hquiet _ List.mem_cons_self
      have hnone : count (marker p) t = 0 := by
        rw [count_eq_zero_iff hne]
        intro k hk
        refine (count_eq_zero_iff (by decide)).mp hcalm k (List.IsPrefix.trans ?_ hk)
        unfold marker
        rw [List.append_assoc]
        exact List.prefix_append _ _
      rw [List.map_cons, List.map_cons, List.sum_cons, hrest hnamed]
      show count (marker p) t + _ = _
      rw [hnone, Nat.zero_add]
      rfl

end

/-! ## Definitions -/

/-- The points of a definition that has a declaration. -/
def pointKinds : DefKind → List PointKind
  | .struct => [.decodeStart, .decodeEnd, .encodeStart, .encodeEnd, .structScope]
  | .message => [.decodeStart, .decodeEnd, .encodeStart, .encodeEnd, .messageScope]
  | .union => [.decodeStart, .decodeSwitch, .decodeEnd, .encodeStart, .encodeSwitch, .encodeEnd, .unionScope]
  | .enum => [.enumScope]
  | .service => [.serviceScope]
  | .const | .decorator => []

def definitionPoints (d : DefinitionDescriptor) : List InsertionPoint := (pointKinds d.kind).map (.scope · d.name)

mutual

/-- The definitions with points: a definition, and those nested in it. -/
def declared (options : GeneratorOptions) : DefinitionDescriptor → List DefinitionDescriptor
  | ⟨kind, visibility, name, fqn, decorators, nested, body⟩ =>
    if fqn ∈ wellKnownFQNs then []
    else
      let d : DefinitionDescriptor := ⟨kind, visibility, name, fqn, decorators, nested, body⟩
      match kind with
      | .struct | .message | .union => declareds options nested ++ [d]
      | .enum => [d]
      | .service => if isGenerated options body then [d] else []
      | .const | .decorator => []

def declareds (options : GeneratorOptions) : List DefinitionDescriptor → List DefinitionDescriptor
  | [] => []
  | d :: ds => declared options d ++ declareds options ds

end

def RecordCode.texts (c : RecordCode) : List Text :=
  c.head ++ c.members.flatten ++ c.decodeHead ++ c.reads ++ c.returned ++ c.encodeHead ++ c.writes ++ c.others.flatten

def UnionCode.texts (c : UnionCode) : List Text :=
  c.head ++ c.members.flatten ++ c.decodeHead ++ c.decodeCases ++ c.decodeDefault ++ c.encodeHead ++ c.encodeCases ++
    c.encodeDefault ++ c.others.flatten

def EnumCode.texts (c : EnumCode) : List Text := c.head ++ c.members.flatten

def ServiceCode.texts (c : ServiceCode) : List Text := c.head ++ c.members ++ c.others.flatten

structure DeclarationCode.Quiet (lines : DeclarationCode) : Prop where
  notice : ∀ schema texts, lines.notice schema = .ok texts → ∀ t ∈ texts, Calm t
  record : ∀ d c, lines.record d = .ok c → ∀ t ∈ c.texts, Calm t
  union : ∀ d c, lines.union d = .ok c → ∀ t ∈ c.texts, Calm t
  enum : ∀ d c, lines.enum d = .ok c → ∀ t ∈ c.texts, Calm t
  service : ∀ d c, lines.service d = .ok c → ∀ t ∈ c.texts, Calm t
  const : ∀ d texts, lines.const d = .ok texts → ∀ t ∈ texts, Calm t

/-- Declarations with the points of these definitions, and no others. -/
structure Declares (ds : List DefinitionDescriptor) (declarations : List Lines) : Prop where
  points : (declarations.flatMap points).Perm (ds.flatMap definitionPoints)
  quiet : ∀ declaration ∈ declarations, Quiet declaration

section

variable {options : GeneratorOptions} {lines : DeclarationCode} {ds ds' : List DefinitionDescriptor}
  {declarations declarations' : List Lines} {d : DefinitionDescriptor}

theorem Declares.append (h : Declares ds declarations) (h' : Declares ds' declarations') :
    Declares (ds ++ ds') (declarations ++ declarations') := by
  constructor
  · rw [List.flatMap_append, List.flatMap_append]
    exact h.points.append h'.points
  · exact List.forall_mem_append.mpr ⟨h.quiet, h'.quiet⟩

theorem Declares.wrap (h : Declares ds declarations) {declaration : Lines} (own rest : List InsertionPoint)
    (hpoints : Swift.points declaration = own ++ declarations.flatMap Swift.points ++ rest) (hown : own ++ rest = definitionPoints d)
    (hquiet : Swift.Quiet declaration) : Declares (ds ++ [d]) [declaration] := by
  refine ⟨?_, List.forall_mem_singleton.mpr hquiet⟩
  rw [List.flatMap_append, List.flatMap_singleton, List.flatMap_singleton, hpoints, ← hown]
  refine (List.Perm.append_right rest List.perm_append_comm).trans ?_
  rw [List.append_assoc]
  exact h.points.append_right _

theorem declares_own {declaration : Lines} (hpoints : points declaration = definitionPoints d)
    (hquiet : Quiet declaration) : Declares [d] [declaration] := by
  refine ⟨?_, List.forall_mem_singleton.mpr hquiet⟩
  rw [List.flatMap_singleton, List.flatMap_singleton, hpoints]

theorem declares_struct {c : RecordCode} (hc : ∀ t ∈ c.texts, Calm t) (hkind : d.kind = .struct)
    (h : Declares ds declarations) : Declares (ds ++ [d]) [generateStruct c d.name declarations] := by
  unfold RecordCode.texts at hc
  simp only [List.forall_mem_append, List.forall_mem_flatten] at hc
  obtain ⟨⟨⟨⟨⟨⟨⟨hhead, hmembers⟩, hdecode⟩, hreads⟩, hreturned⟩, hencode⟩, hwrites⟩, hothers⟩ := hc
  refine h.wrap [.scope .decodeStart d.name, .scope .decodeEnd d.name, .scope .encodeStart d.name,
    .scope .encodeEnd d.name] [.scope .structScope d.name] ?_ ?_ ?_
  · simp [generateStruct, encodeMethod]
  · simp [definitionPoints, hkind, pointKinds]
  · simp only [generateStruct, encodeMethod, quiet_typeDeclaration, List.forall_mem_append, List.forall_mem_map, List.forall_mem_cons,
      quiet_block, quiet_append, quiet_code, quiet_point]
    exact ⟨hhead, ⟨⟨hmembers, ⟨hdecode, ⟨⟨trivial, hreads⟩, trivial⟩, hreturned⟩, ⟨hencode, ⟨trivial, hwrites⟩, trivial⟩,
      fun _ h => (by cases h)⟩, hothers⟩, h.quiet⟩

theorem declares_message {c : RecordCode} (hc : ∀ t ∈ c.texts, Calm t) (hkind : d.kind = .message)
    (h : Declares ds declarations) : Declares (ds ++ [d]) [generateMessage c d.name declarations] := by
  have hread : Calm readMessageHead := by
    unfold Calm
    decide
  unfold RecordCode.texts at hc
  simp only [List.forall_mem_append, List.forall_mem_flatten] at hc
  obtain ⟨⟨⟨⟨⟨⟨⟨hhead, hmembers⟩, hdecode⟩, hreads⟩, hreturned⟩, hencode⟩, hwrites⟩, hothers⟩ := hc
  refine h.wrap [.scope .decodeStart d.name, .scope .decodeEnd d.name, .scope .encodeStart d.name,
    .scope .encodeEnd d.name] [.scope .messageScope d.name] ?_ ?_ ?_
  · simp [generateMessage, encodeMethod]
  · simp [definitionPoints, hkind, pointKinds]
  · simp only [generateMessage, encodeMethod, quiet_typeDeclaration, List.forall_mem_append, List.forall_mem_map, List.forall_mem_cons,
      quiet_block, quiet_append, quiet_code, quiet_point]
    exact ⟨hhead, ⟨⟨hmembers, ⟨hdecode, ⟨hread, fun _ h => (by cases h)⟩, ⟨⟨trivial, hreads⟩, trivial⟩, hreturned⟩,
      ⟨hencode, ⟨trivial, hwrites⟩, trivial⟩, fun _ h => (by cases h)⟩, hothers⟩, h.quiet⟩

theorem declares_union {c : UnionCode} (hc : ∀ t ∈ c.texts, Calm t) (hkind : d.kind = .union)
    (h : Declares ds declarations) : Declares (ds ++ [d]) [generateUnion c d.name declarations] := by
  have hresult : Calm returnResult := by
    unfold Calm
    decide
  unfold UnionCode.texts at hc
  simp only [List.forall_mem_append, List.forall_mem_flatten] at hc
  obtain ⟨⟨⟨⟨⟨⟨⟨⟨hhead, hmembers⟩, hdecode⟩, hcases⟩, hdefault⟩, hencode⟩, hcases'⟩, hdefault'⟩, hothers⟩ := hc
  refine h.wrap [.scope .decodeStart d.name, .scope .decodeSwitch d.name, .scope .decodeEnd d.name,
    .scope .encodeStart d.name, .scope .encodeSwitch d.name, .scope .encodeEnd d.name] [.scope .unionScope d.name] ?_ ?_ ?_
  · simp [generateUnion]
  · simp [definitionPoints, hkind, pointKinds]
  · simp only [generateUnion, quiet_typeDeclaration, List.forall_mem_append, List.forall_mem_map, List.forall_mem_cons,
      quiet_block, quiet_append, quiet_code, quiet_point]
    exact ⟨hhead, ⟨⟨hmembers, ⟨hdecode, ⟨⟨⟨⟨trivial, hcases⟩, trivial⟩, hdefault⟩, trivial⟩, hresult, fun _ h => (by cases h)⟩,
      ⟨hencode, ⟨⟨⟨trivial, hcases'⟩, trivial⟩, hdefault'⟩, trivial⟩, fun _ h => (by cases h)⟩, hothers⟩, h.quiet⟩

theorem declares_enum {c : EnumCode} (hc : ∀ t ∈ c.texts, Calm t) (hkind : d.kind = .enum) :
    Declares [d] [generateEnum c d.name] := by
  unfold EnumCode.texts at hc
  simp only [List.forall_mem_append, List.forall_mem_flatten] at hc
  refine declares_own ?_ ?_
  · simp [generateEnum, definitionPoints, hkind, pointKinds]
  · simp only [generateEnum, quiet_typeDeclaration, List.forall_mem_map, quiet_code]
    exact ⟨hc.1, hc.2, fun _ h => (by cases h)⟩

theorem declares_service {c : ServiceCode} (hc : ∀ t ∈ c.texts, Calm t) (hkind : d.kind = .service) :
    Declares [d] (generateService c d.name) := by
  unfold ServiceCode.texts at hc
  simp only [List.forall_mem_append, List.forall_mem_flatten] at hc
  constructor
  · simp [generateService, definitionPoints, hkind, pointKinds]
  · simp only [generateService, List.forall_mem_cons, List.forall_mem_map, quiet_block, quiet_append, quiet_code, quiet_point]
    exact ⟨⟨hc.1.1, hc.1.2, trivial⟩, hc.2⟩

mutual

theorem declares_generateDefinition (hquiet : lines.Quiet) (d : DefinitionDescriptor) {declarations : List Lines}
    (h : generateDefinition options lines d = .ok declarations) : Declares (declared options d) declarations := by
  match d with
  | ⟨kind, visibility, name, fqn, decorators, nested, body⟩ =>
    unfold generateDefinition at h
    unfold declared
    by_cases hknown : fqn ∈ wellKnownFQNs
    · rw [if_pos hknown] at h ⊢
      cases h
      exact ⟨.refl _, fun _ h => (by cases h)⟩
    · rw [if_neg hknown] at h ⊢
      obtain ⟨inner, hinner, h⟩ := exists_of_bind h
      have hnested := declares_generateDefinitions hquiet nested hinner
      cases kind with
      | enum =>
        obtain ⟨c, hc, h⟩ := exists_of_bind h
        cases h
        exact declares_enum (hquiet.enum _ c hc) rfl
      | struct =>
        obtain ⟨c, hc, h⟩ := exists_of_bind h
        cases h
        exact declares_struct (hquiet.record _ c hc) rfl hnested
      | message =>
        obtain ⟨c, hc, h⟩ := exists_of_bind h
        cases h
        exact declares_message (hquiet.record _ c hc) rfl hnested
      | union =>
        obtain ⟨c, hc, h⟩ := exists_of_bind h
        cases h
        exact declares_union (hquiet.union _ c hc) rfl hnested
      | const =>
        obtain ⟨texts, hc, h⟩ := exists_of_bind h
        cases h
        exact ⟨by simp, by simpa using hquiet.const _ texts hc⟩
      | service =>
        dsimp only at h ⊢
        by_cases hgenerated : isGenerated options body
        · rw [if_pos hgenerated] at h ⊢
          obtain ⟨c, hc, h⟩ := exists_of_bind h
          cases h
          exact declares_service (hquiet.service _ c hc) rfl
        · rw [if_neg hgenerated] at h ⊢
          cases h
          exact ⟨.refl _, fun _ h => (by cases h)⟩
      | decorator =>
        cases h
        exact ⟨.refl _, fun _ h => (by cases h)⟩

theorem declares_generateDefinitions (hquiet : lines.Quiet) (ds : List DefinitionDescriptor) {declarations : List Lines}
    (h : generateDefinitions options lines ds = .ok declarations) : Declares (declareds options ds) declarations := by
  match ds with
  | [] =>
    cases h
    exact ⟨.refl _, fun _ h => (by cases h)⟩
  | d :: ds =>
    unfold generateDefinitions at h
    obtain ⟨first, hfirst, h⟩ := exists_of_bind h
    obtain ⟨others, hothers, h⟩ := exists_of_bind h
    cases h
    unfold declareds
    exact (declares_generateDefinition hquiet d hfirst).append (declares_generateDefinitions hquiet ds hothers)

end

end

/-! ## Files -/

section

variable {options : GeneratorOptions} {lines : DeclarationCode} {schema : SchemaDescriptor} {file : Lines}

theorem points_generate (hquiet : lines.Quiet) (h : generate options lines schema = .ok file) :
    (points file).Perm
        (.imports :: .eof :: (declareds options schema.definitions).flatMap definitionPoints) ∧ Quiet file := by
  have himport : Calm "import SwiftBebop".toList := by
    unfold Calm
    decide
  unfold generate at h
  obtain ⟨_, -, h⟩ := exists_of_bind h
  obtain ⟨declarations, hdeclarations, h⟩ := exists_of_bind h
  obtain ⟨notice, hnotice, h⟩ := exists_of_bind h
  cases h
  obtain ⟨hpoints, hcalm⟩ := declares_generateDefinitions hquiet _ hdeclarations
  have himports : points [.point 0 .imports] = [.imports] := rfl
  have heof : points [.point 0 .eof] = [.eof] := rfl
  constructor
  · rw [points_append, points_append, points_append, points_append, points_code, points_paragraphs, points_code, heof,
      List.flatMap_cons, points_append, points_code, himports]
    simp only [List.nil_append, List.append_nil, List.cons_append]
    refine .cons _ (List.perm_append_comm.trans ?_)
    exact .cons _ hpoints
  · have hblank : Calm [] ∧ ∀ t ∈ ([] : List Text), Calm t := ⟨calm_nil, fun _ h => (by cases h)⟩
    have hpoint (p : InsertionPoint) : Quiet [.point 0 p] := List.forall_mem_singleton.mpr trivial
    simp only [quiet_append, quiet_code, quiet_paragraphs, List.forall_mem_cons]
    exact ⟨⟨⟨⟨hquiet.notice _ _ hnotice, ⟨⟨himport, fun _ h => (by cases h)⟩, hpoint _⟩, hcalm⟩, hblank⟩, hpoint _⟩, hblank⟩

/-- Two definitions of one name that have points of one kind. -/
def SharePoints (d e : DefinitionDescriptor) : Prop :=
  d.name = e.name ∧ ∃ kind ∈ pointKinds d.kind, kind ∈ pointKinds e.kind

instance (d e : DefinitionDescriptor) : Decidable (SharePoints d e) := inferInstanceAs (Decidable (_ ∧ _))

theorem disjoint_definitionPoints (d e : DefinitionDescriptor) :
    List.Disjoint (definitionPoints d) (definitionPoints e) ↔ ¬SharePoints d e := by
  unfold definitionPoints
  constructor
  · rintro hdisjoint ⟨hname, kind, hd, he⟩
    exact hdisjoint (List.mem_map_of_mem hd) (hname ▸ List.mem_map_of_mem he)
  · intro hshare p hd he
    obtain ⟨kind, hkind, rfl⟩ := List.mem_map.mp hd
    obtain ⟨kind', hkind', heq⟩ := List.mem_map.mp he
    obtain ⟨rfl, hname⟩ := InsertionPoint.scope.inj heq
    exact hshare ⟨hname.symm, kind', hkind, hkind'⟩

theorem nodup_definitionPoints (d : DefinitionDescriptor) : (definitionPoints d).Nodup := by
  have hkinds : (pointKinds d.kind).Nodup := by
    cases d.kind <;> decide
  exact hkinds.map fun _ _ h => (InsertionPoint.scope.inj h).1

theorem nodup_points_iff (hquiet : lines.Quiet) (h : generate options lines schema = .ok file) :
    (points file).Nodup ↔ (declareds options schema.definitions).Pairwise fun d e => ¬SharePoints d e := by
  have himports : InsertionPoint.imports ∉ .eof :: (declareds options schema.definitions).flatMap definitionPoints := by
    simp [definitionPoints]
  have heof : InsertionPoint.eof ∉ (declareds options schema.definitions).flatMap definitionPoints := by
    simp [definitionPoints]
  rw [(points_generate hquiet h).1.nodup_iff, List.nodup_cons, List.nodup_cons, and_iff_right himports, and_iff_right heof,
    List.nodup_flatMap, and_iff_right fun d _ => nodup_definitionPoints d]
  refine Iff.of_eq (congrArg (List.Pairwise · _) ?_)
  funext d e
  exact propext (disjoint_definitionPoints d e)

theorem points_once_iff (hquiet : lines.Quiet) (h : generate options lines schema = .ok file)
    (hnames : ∀ d ∈ declareds options schema.definitions, IsName d.name) :
    (∀ p ∈ points file, count (marker p) (text file) = 1) ↔
      (declareds options schema.definitions).Pairwise fun d e => ¬SharePoints d e := by
  obtain ⟨hperm, hcalm⟩ := points_generate hquiet h
  have hnamed : ∀ q ∈ points file, q.Named := by
    intro q hq
    rcases List.mem_cons.mp (hperm.mem_iff.mp hq) with rfl | hq
    · trivial
    · rcases List.mem_cons.mp hq with rfl | hq
      · trivial
      · obtain ⟨d, hd, hq⟩ := List.mem_flatMap.mp hq
        obtain ⟨kind, -, rfl⟩ := List.mem_map.mp hq
        exact hnames d hd
  rw [← nodup_points_iff hquiet h, List.nodup_iff_count_eq_one]
  exact forall₂_congr fun p hp => by rw [count_text hcalm hnamed (hnamed p hp)]

end

end Bebop.Swift
