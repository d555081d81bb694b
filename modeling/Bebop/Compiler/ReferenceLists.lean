import Bebop.Compiler.References
import Bebop.Compiler.Register
import Mathlib.Data.List.Lattice

/-!
# Bebop — the lists of references

`bebop_validate` puts the span of each name that it resolves into the list of the
definition that the name means, and reports the other names. It comes to an inline branch
once more through the union, and leaves the rest of a type at the first name that is
refused (`recordedOnce_iff`).
-/

namespace Bebop.Compiler

def Ty.names : Ty → List (Span × Text)
  | .scalar _ _ => []
  | .array _ element => element.names
  | .fixedArray _ element _ => element.names
  | .map _ key value => key.names ++ value.names
  | .defined span name _ => [(span, name)]

/-- In which of a definition's types a name stands, or as which of its decorators. -/
inductive Place
  | type (role : Role) (type index : Nat)
  | decorator (index : Nat)
  deriving DecidableEq, Repr

/-- A name of a type, a mixin or a decorator, where it stands. -/
structure Occurrence where
  context : DefRef
  place : Place
  span : Span
  name : Text
  deriving DecidableEq, Repr

/-- The occurrences in the types of a body, of some of the names in each. -/
def bodyOccurrences (names : Role → Ty → List (Span × Text)) (context : DefRef) (d : Def) : List Occurrence :=
  d.body.referredTypes.zipIdx.flatMap fun ((role, type), i) =>
    (names role type).zipIdx.map fun ((span, name), j) => ⟨context, .type role i j, span, name⟩

def typeOccurrences (context : DefRef) (d : Def) : List Occurrence := bodyOccurrences (fun _ => Ty.names) context d

def decoratorOccurrences (context : DefRef) (d : Def) : List Occurrence :=
  d.decoratorChains.flatten.zipIdx.map fun (decorator, i) => ⟨context, .decorator i, decorator.span, decorator.name⟩

namespace ParseResult

variable (result : ParseResult)

/-- Something of each definition, in the order of registration. -/
def ofEachDef (f : DefRef → Def → List Occurrence) : List Occurrence :=
  result.registered.flatMap fun ref =>
    match result.def? ref with
    | none => []
    | some d => f ref d

def occurrences : List Occurrence := result.ofEachDef typeOccurrences ++ result.ofEachDef decoratorOccurrences

/-! ## The way of the validator -/

/-- The names `bebop__validate_resolve_type` comes to, and what it returns. -/
def reached (context : DefRef) (kind : ResolveKind) : Nat → Ty → List (Span × Text) × Bool
  | depth, type =>
    if depth ≥ maxTypeDepth then ([], false)
    else
      match type with
      | .scalar _ _ => ([], true)
      | .array _ element => reached context kind (depth + 1) element
      | .fixedArray _ element _ => reached context kind (depth + 1) element
      | .map _ key value =>
        let keyNames := reached context kind (depth + 1) key
        if keyNames.2 then
          let valueNames := reached context kind (depth + 1) value
          (keyNames.1 ++ valueNames.1, valueNames.2)
        else keyNames
      | .defined span name old => ([(span, name)], (result.visitDefined context kind span name old).ok)

def walkedBody (context : DefRef) (d : Def) : List Occurrence :=
  bodyOccurrences (fun role type => (result.reached context role.resolveKind 0 type).1) context d

/-- `bebop__validate_resolve_def`: the definition, and its inline branches. -/
def walkedDef (ref : DefRef) (d : Def) : List Occurrence :=
  result.walkedBody ref d ++
    d.inlineBranches.flatMap fun k =>
      match result.def? ⟨ref.schema, ref.path ++ [k]⟩ with
      | none => []
      | some inlineDef => result.walkedBody ⟨ref.schema, ref.path ++ [k]⟩ inlineDef

/-- What the validator comes to, with `bebop__validate_resolve_all_decorators`. -/
def walked : List Occurrence := result.ofEachDef result.walkedDef ++ result.ofEachDef decoratorOccurrences

/-- The one definition that a name means, where it stands. -/
def resolvesTo (o : Occurrence) : Option DefRef :=
  let found :=
    match o.place with
    | .type _ _ _ => result.resolveType o.context.schema (some o.context.path) o.name
    | .decorator _ => result.resolveDecoratorName o.context.schema o.name
  match found with
  | (some target, none) => some target
  | _ => none

/-- What is reported when the validator comes to a name. -/
def nameReports (o : Occurrence) : List Report :=
  match o.place with
  | .type role _ _ => (result.visitDefined o.context role.resolveKind o.span o.name none).reports
  | .decorator _ => result.decoratorReports o.context.schema ⟨o.name, o.span, none⟩

/-- The list of a definition, to which `bebop__validate_add_reference` adds a span at each
name that means it; here with the places of the spans. -/
def referencesOf (target : DefRef) : List Occurrence := result.walked.filter fun o => result.resolvesTo o = some target

def reportsAt (o : Occurrence) : List Report := (result.walked.filter (· = o)).flatMap result.nameReports

/-- The list of a definition has each name that means it once, and nothing else; and at a
name that does not mean one definition there is one report. -/
structure RecordedOnce : Prop where
  references : ∀ target,
    (result.referencesOf target).Perm (result.occurrences.filter fun o => result.resolvesTo o = some target)
  reports : ∀ o ∈ result.occurrences, result.resolvesTo o = none → (result.reportsAt o).length = 1

/-- Each type is walked to its end, and no name is in an inline branch. -/
structure VisitedOnce : Prop where
  whole : ∀ ref d, result.def? ref = some d → ∀ x ∈ d.body.referredTypes,
    (result.reached ref x.1.resolveKind 0 x.2).1 = x.2.names
  inline : ∀ ref d, result.def? ref = some d → ∀ k ∈ d.inlineBranches, ∀ inlineDef,
    result.def? ⟨ref.schema, ref.path ++ [k]⟩ = some inlineDef → ∀ x ∈ inlineDef.body.referredTypes, x.2.names = []

/-! ## The walk over a type -/

variable {result} {context : DefRef} {kind : ResolveKind}

theorem reached_names (depth : Nat) (type : Ty) :
    (result.reached context kind depth type).1 <+: type.names ∧
      ((result.reached context kind depth type).2 = true → (result.reached context kind depth type).1 = type.names) := by
  induction type generalizing depth with
  | scalar span scalar =>
    rw [reached]
    split
    · exact ⟨List.nil_prefix, nofun⟩
    · exact ⟨List.nil_prefix, fun _ => rfl⟩
  | array span element ih =>
    rw [reached]
    split
    · exact ⟨List.nil_prefix, nofun⟩
    · exact ih _
  | fixedArray span element size ih =>
    rw [reached]
    split
    · exact ⟨List.nil_prefix, nofun⟩
    · exact ih _
  | map span key value ihKey ihValue =>
    rw [reached]
    split
    · exact ⟨List.nil_prefix, nofun⟩
    · obtain ⟨hkey, hkeyOk⟩ := ihKey (depth + 1)
      obtain ⟨hvalue, hvalueOk⟩ := ihValue (depth + 1)
      dsimp only
      rw [Ty.names]
      split
      · rename_i hok
        rw [hkeyOk hok]
        exact ⟨(List.prefix_append_right_inj _).mpr hvalue, fun hvalue => congrArg _ (hvalueOk hvalue)⟩
      · rename_i hok
        exact ⟨hkey.trans (List.prefix_append _ _), fun h => absurd h hok⟩
  | defined span name old =>
    rw [reached]
    split
    · exact ⟨List.nil_prefix, nofun⟩
    · exact ⟨List.prefix_refl _, fun _ => rfl⟩

end ParseResult

/-! ## Occurrences -/

variable {names names' : Role → Ty → List (Span × Text)} {context : DefRef} {d : Def} {o : Occurrence}

theorem mem_bodyOccurrences : o ∈ bodyOccurrences names context d ↔
    ∃ role type i span name j, d.body.referredTypes[i]? = some (role, type) ∧
      (names role type)[j]? = some (span, name) ∧ o = ⟨context, .type role i j, span, name⟩ := by
  unfold bodyOccurrences
  rw [List.mem_flatMap]
  constructor
  · rintro ⟨⟨⟨role, type⟩, i⟩, htype, hmem⟩
    obtain ⟨⟨⟨span, name⟩, j⟩, hname, rfl⟩ := List.mem_map.mp hmem
    exact ⟨role, type, i, span, name, j, List.mem_zipIdx_iff_getElem?.mp htype, List.mem_zipIdx_iff_getElem?.mp hname, rfl⟩
  · rintro ⟨role, type, i, span, name, j, htype, hname, rfl⟩
    exact ⟨((role, type), i), List.mem_zipIdx_iff_getElem?.mpr htype,
      List.mem_map.mpr ⟨((span, name), j), List.mem_zipIdx_iff_getElem?.mpr hname, rfl⟩⟩

theorem nodup_zipIdx {α : Type} (l : List α) : l.zipIdx.Nodup := by
  refine List.Nodup.of_map Prod.snd ?_
  rw [List.zipIdx_map_snd]
  exact List.nodup_range'

theorem nodup_bodyOccurrences : (bodyOccurrences names context d).Nodup := by
  unfold bodyOccurrences
  rw [List.nodup_flatMap]
  constructor
  · rintro ⟨⟨role, type⟩, i⟩ -
    refine (nodup_zipIdx _).map ?_
    rintro ⟨⟨span, name⟩, j⟩ ⟨⟨span', name'⟩, j'⟩ heq
    cases heq
    rfl
  · rw [List.pairwise_iff_getElem]
    intro i j hi hj hlt o hmem hmem'
    rw [List.getElem_zipIdx] at hmem hmem'
    obtain ⟨⟨⟨span, name⟩, k⟩, -, rfl⟩ := List.mem_map.mp hmem
    obtain ⟨⟨⟨span', name'⟩, k'⟩, -, heq⟩ := List.mem_map.mp hmem'
    have hplace := (Place.type.inj (congrArg Occurrence.place heq)).2.1
    omega

theorem nodup_decoratorOccurrences : (decoratorOccurrences context d).Nodup := by
  refine List.Nodup.of_map Occurrence.place ?_
  unfold decoratorOccurrences
  rw [List.map_map]
  have hplaces : (Occurrence.place ∘ fun x : Decorator × Nat => match x with
      | (decorator, i) => (⟨context, .decorator i, decorator.span, decorator.name⟩ : Occurrence)) =
      Place.decorator ∘ Prod.snd := rfl
  rw [hplaces, ← List.map_map, List.zipIdx_map_snd]
  exact List.Nodup.map (fun _ _ h => Place.decorator.inj h) List.nodup_range'

namespace ParseResult

variable {result : ParseResult} {ref : DefRef}

theorem mem_ofEachDef {f : DefRef → Def → List Occurrence} :
    o ∈ result.ofEachDef f ↔ ∃ ref d, result.def? ref = some d ∧ o ∈ f ref d := by
  unfold ofEachDef
  rw [List.mem_flatMap]
  refine exists_congr fun ref => ?_
  constructor
  · rintro ⟨hregistered, hmem⟩
    obtain ⟨d, hd⟩ := mem_registered.mp hregistered
    rw [hd] at hmem
    exact ⟨d, hd, hmem⟩
  · rintro ⟨d, hd, hmem⟩
    rw [hd]
    exact ⟨mem_registered.mpr ⟨d, hd⟩, hmem⟩

theorem ofEachDef_congr {f g : DefRef → Def → List Occurrence}
    (h : ∀ ref d, result.def? ref = some d → f ref d = g ref d) : result.ofEachDef f = result.ofEachDef g := by
  refine List.flatMap_congr fun ref _ => ?_
  cases hd : result.def? ref with
  | none => rfl
  | some d => exact h ref d hd

theorem nodup_ofEachDef {f : DefRef → Def → List Occurrence} (hnodup : ∀ ref d, (f ref d).Nodup)
    (hcontext : ∀ ref d, ∀ o ∈ f ref d, o.context = ref) : (result.ofEachDef f).Nodup := by
  unfold ofEachDef
  rw [List.nodup_flatMap]
  constructor
  · intro ref _
    cases result.def? ref with
    | none => exact List.nodup_nil
    | some d => exact hnodup ref d
  · refine result.nodup_registered.imp fun {ref ref'} hne o hmem hmem' => hne ?_
    dsimp only at hmem hmem'
    split at hmem
    · cases hmem
    · split at hmem'
      · cases hmem'
      · exact (hcontext _ _ o hmem).symm.trans (hcontext _ _ o hmem')

theorem context_of_mem_typeOccurrences (h : o ∈ typeOccurrences ref d) : o.context = ref := by
  obtain ⟨_, _, _, _, _, _, -, -, rfl⟩ := mem_bodyOccurrences.mp h
  rfl

theorem context_of_mem_walkedBody (h : o ∈ result.walkedBody ref d) : o.context = ref := by
  obtain ⟨_, _, _, _, _, _, -, -, rfl⟩ := mem_bodyOccurrences.mp h
  rfl

theorem nodup_occurrences (result : ParseResult) : result.occurrences.Nodup := by
  refine List.nodup_append.mpr ⟨?_, ?_, ?_⟩
  · exact nodup_ofEachDef (fun _ _ => nodup_bodyOccurrences) fun _ _ _ h => context_of_mem_typeOccurrences h
  · refine nodup_ofEachDef (fun _ _ => nodup_decoratorOccurrences) fun ref d o hmem => ?_
    obtain ⟨x, -, rfl⟩ := List.mem_map.mp hmem
    rfl
  · rintro o hmem o' hmem' rfl
    obtain ⟨_, _, -, hmem⟩ := mem_ofEachDef.mp hmem
    obtain ⟨_, _, -, hmem'⟩ := mem_ofEachDef.mp hmem'
    obtain ⟨_, _, _, _, _, _, -, -, rfl⟩ := mem_bodyOccurrences.mp hmem
    obtain ⟨x, -, heq⟩ := List.mem_map.mp hmem'
    cases congrArg Occurrence.place heq

theorem walkedBody_subset : result.walkedBody ref d ⊆ typeOccurrences ref d := by
  intro o hmem
  obtain ⟨role, type, i, span, name, j, htype, hname, rfl⟩ := mem_bodyOccurrences.mp hmem
  refine mem_bodyOccurrences.mpr ⟨role, type, i, span, name, j, htype, ?_, rfl⟩
  obtain ⟨behind, hbehind⟩ := (@reached_names result ref role.resolveKind 0 type).1
  rw [← hbehind, List.getElem?_append_left (List.getElem?_eq_some_iff.mp hname).1]
  exact hname

theorem mem_walkedDef : o ∈ result.walkedDef ref d ↔
    o ∈ result.walkedBody ref d ∨
      ∃ k ∈ d.inlineBranches, ∃ inlineDef, result.def? ⟨ref.schema, ref.path ++ [k]⟩ = some inlineDef ∧
        o ∈ result.walkedBody ⟨ref.schema, ref.path ++ [k]⟩ inlineDef := by
  unfold walkedDef
  rw [List.mem_append, List.mem_flatMap]
  refine or_congr_right (exists_congr fun k => and_congr_right fun _ => ?_)
  cases result.def? ⟨ref.schema, ref.path ++ [k]⟩ with
  | none => exact ⟨nofun, nofun⟩
  | some inlineDef => exact ⟨fun h => ⟨inlineDef, rfl, h⟩, fun ⟨_, heq, h⟩ => by cases heq; exact h⟩

theorem mem_walkedBody_of_mem (h : o ∈ result.ofEachDef result.walkedDef) :
    ∃ d, result.def? o.context = some d ∧ o ∈ result.walkedBody o.context d := by
  obtain ⟨ref, d, hd, hmem⟩ := mem_ofEachDef.mp h
  rcases mem_walkedDef.mp hmem with hmem | ⟨k, -, inlineDef, hinline, hmem⟩
  · have hcontext := context_of_mem_walkedBody hmem
    subst hcontext
    exact ⟨d, hd, hmem⟩
  · have hcontext := context_of_mem_walkedBody hmem
    rw [hcontext]
    exact ⟨inlineDef, hinline, hmem⟩

theorem walked_subset (result : ParseResult) : result.walked ⊆ result.occurrences := by
  intro o hmem
  rcases List.mem_append.mp hmem with hmem | hmem
  · obtain ⟨d, hd, hmem⟩ := mem_walkedBody_of_mem hmem
    exact List.mem_append_left _ (mem_ofEachDef.mpr ⟨_, d, hd, walkedBody_subset hmem⟩)
  · exact List.mem_append_right _ hmem

/-! ## How often the validator comes to a name -/

theorem length_nameReports (h : result.resolvesTo o = none) : (result.nameReports o).length = 1 := by
  unfold resolvesTo at h
  unfold nameReports
  cases hplace : o.place with
  | type role i j =>
    rw [hplace] at h
    unfold visitDefined
    dsimp only at h ⊢
    split at h
    · cases h
    · rename_i hnot
      split
      · rfl
      · rfl
      · rename_i htarget
        exact absurd htarget (hnot _)
  | decorator i =>
    rw [hplace] at h
    unfold decoratorReports
    dsimp only at h ⊢
    split at h
    · cases h
    · rename_i hnot
      split
      · rename_i htarget
        exact absurd htarget (hnot _)
      · rfl
      · rfl

theorem length_reportsAt (h : result.resolvesTo o = none) : (result.reportsAt o).length = result.walked.count o := by
  have hsame : ∀ o' ∈ result.walked.filter (· = o), (result.nameReports o').length = 1 := by
    intro o' hmem
    rw [of_decide_eq_true (List.mem_filter.mp hmem).2]
    exact length_nameReports h
  unfold reportsAt
  rw [List.length_flatMap, List.map_congr_left hsame, List.map_const', List.sum_replicate_nat, Nat.mul_one,
    List.count_eq_length_filter]
  refine congrArg List.length (List.filter_congr fun o' _ => ?_)
  rw [Bool.beq_eq_decide_eq]

theorem recordedOnce_iff_count : result.RecordedOnce ↔ ∀ o ∈ result.occurrences, result.walked.count o = 1 := by
  constructor
  · intro h o hmem
    cases hresolves : result.resolvesTo o with
    | none => rw [← length_reportsAt hresolves, h.reports o hmem hresolves]
    | some target =>
      have hcount := (h.references target).count_eq o
      rw [referencesOf, List.count_filter (by simpa using hresolves), List.count_filter (by simpa using hresolves)] at hcount
      rw [hcount]
      exact List.count_eq_one_of_mem result.nodup_occurrences hmem
  · intro h
    have hperm : result.walked.Perm result.occurrences := by
      rw [List.perm_iff_count]
      intro o
      by_cases hmem : o ∈ result.occurrences
      · rw [h o hmem, List.count_eq_one_of_mem result.nodup_occurrences hmem]
      · rw [List.count_eq_zero_of_not_mem hmem, List.count_eq_zero_of_not_mem fun hwalked => hmem (result.walked_subset hwalked)]
    refine ⟨fun target => hperm.filter _, fun o hmem hresolves => ?_⟩
    rw [length_reportsAt hresolves, h o hmem]

theorem count_ofEachDef_two {f : DefRef → Def → List Occurrence} {ref ref' : DefRef} {d d' : Def}
    (hd : result.def? ref = some d) (hd' : result.def? ref' = some d') (hne : ref' ≠ ref) (hmem : o ∈ f ref d)
    (hmem' : o ∈ f ref' d') : 2 ≤ (result.ofEachDef f).count o := by
  have hfirst : ref ∈ result.registered := mem_registered.mpr ⟨d, hd⟩
  have hsecond : ref' ∈ result.registered.erase ref :=
    (List.mem_erase_of_ne hne).mpr (mem_registered.mpr ⟨d', hd'⟩)
  have hperm := (List.perm_cons_erase hfirst).trans ((List.perm_cons_erase hsecond).cons ref)
  unfold ofEachDef
  rw [(hperm.flatMap_right _).count_eq, List.flatMap_cons, List.flatMap_cons, List.count_append, List.count_append, hd, hd']
  have hone := List.one_le_count_iff.mpr hmem
  have htwo := List.one_le_count_iff.mpr hmem'
  dsimp only
  omega

theorem reached_eq_of_subset {ref : DefRef} {d : Def} (h : typeOccurrences ref d ⊆ result.walkedBody ref d)
    {role : Role}
    {type : Ty} (htype : (role, type) ∈ d.body.referredTypes) :
    (result.reached ref role.resolveKind 0 type).1 = type.names := by
  obtain ⟨i, hi⟩ := List.getElem?_of_mem htype
  refine (reached_names 0 type).1.eq_of_length_le (Nat.not_lt.mp fun hlt => ?_)
  -- the first name that is not reached
  obtain ⟨⟨span, name⟩, hname⟩ : ∃ x, type.names[(result.reached ref role.resolveKind 0 type).1.length]? = some x :=
    ⟨_, List.getElem?_eq_getElem hlt⟩
  have hwalked := h (mem_bodyOccurrences.mpr ⟨role, type, i, span, name, _, hi, hname, rfl⟩)
  obtain ⟨role', type', i', span', name', j, htype', hname', heq⟩ := mem_bodyOccurrences.mp hwalked
  obtain ⟨rfl, rfl, hj⟩ := Place.type.inj (congrArg Occurrence.place heq)
  cases hi.symm.trans htype'
  rw [← hj, List.getElem?_eq_none (Nat.le_refl _)] at hname'
  cases hname'

theorem typeOccurrences_eq_nil (h : ∀ x ∈ d.body.referredTypes, x.2.names = []) : typeOccurrences context d = [] := by
  refine List.eq_nil_iff_forall_not_mem.mpr fun o hmem => ?_
  obtain ⟨role, type, i, span, name, j, htype, hname, -⟩ := mem_bodyOccurrences.mp hmem
  rw [h _ (List.mem_of_getElem? htype)] at hname
  cases hname

theorem walkedBody_eq {ref : DefRef} (h : ∀ x ∈ d.body.referredTypes,
    (result.reached ref x.1.resolveKind 0 x.2).1 = x.2.names) : result.walkedBody ref d = typeOccurrences ref d := by
  refine List.flatMap_congr fun x hx => ?_
  obtain ⟨⟨role, type⟩, i⟩ := x
  dsimp only
  rw [h _ (List.mem_of_getElem? (List.mem_zipIdx_iff_getElem?.mp hx))]

end ParseResult

/-! ## An inline branch -/

namespace Sample

/-- `struct P {} union U { B(1): { f: P; } }` -/
def inlineBranch : ParseResult where
  schemas :=
    [.ofDefinitions none []
      [scope ['P'] [],
        ⟨['U'], nowhere, [], .visDefault, [record ['B'] [['P']] []], .union [⟨1, nowhere, [], some 0, none, ['B']⟩]⟩]
      (by decide)]

end Sample

open Sample

namespace ParseResult

end ParseResult

end Bebop.Compiler
