import Bebop.Compiler.Descriptor
import Bebop.Compiler.Services
import Bebop.Compiler.SortedDefinitions

/-!
# Bebop — the names in a descriptor

Plugins find a definition by the name that a descriptor has where it is referred
to. For types the name is that of the definition the pointer leads to; for
decorators it is the one that was written.
-/

namespace Bebop.Compiler

/-! ## The names, in their order -/

def TypeDescriptor.names : TypeDescriptor → List Text
  | .scalar _ => []
  | .array element => element.names
  | .fixedArray element _ => element.names
  | .map key value => key.names ++ value.names
  | .defined fqn => [fqn]

namespace BodyDescriptor

/-- The names in the types of a descriptor, with what the types are for. -/
def typeNames : BodyDescriptor → List (Role × Text)
  | .structDef _ fields => fields.flatMap fun field => field.type.names.map (Prod.mk .field)
  | .messageDef fields => fields.flatMap fun field => field.type.names.map (Prod.mk .field)
  | .unionDef branches => branches.flatMap fun branch => branch.typeRefFqn.toList.map (Prod.mk .branch)
  | .serviceDef methods =>
    methods.flatMap fun method => (method.requestType.names ++ method.responseType.names).map (Prod.mk .method)
  | .constDef type => type.names.map (Prod.mk .field)
  | .enumDef _ _ _ => []
  | .decoratorDef => []

def inlineNames : BodyDescriptor → List Text
  | .unionDef branches => branches.filterMap UnionBranchDescriptor.inlineFqn
  | _ => []

def usages : BodyDescriptor → List DecoratorUsage
  | .structDef _ fields => fields.flatMap FieldDescriptor.decorators
  | .messageDef fields => fields.flatMap FieldDescriptor.decorators
  | .unionDef branches => branches.flatMap UnionBranchDescriptor.decorators
  | .serviceDef methods => methods.flatMap MethodDescriptor.decorators
  | .enumDef _ _ members => members.flatMap EnumMemberDescriptor.decorators
  | .constDef _ => []
  | .decoratorDef => []

end BodyDescriptor

def DefinitionDescriptor.usages (descriptor : DefinitionDescriptor) : List DecoratorUsage :=
  descriptor.decorators ++ descriptor.body.usages

/-- The references of a definition that its descriptor has: all but the mixins. -/
def Def.describedReferences (d : Def) : List Reference := d.references.filter fun r => r.role ≠ .mixin

/-- What the parser makes sure of in a file in which it reports nothing: the type of
a branch is a name, and the branch has no definition inline; and the type of a
constant has no names. -/
structure Def.TypesPlain (d : Def) : Prop where
  branches : ∀ branches, d.body = .union branches → ∀ branch ∈ branches, ∀ type, branch.typeRef = some type →
    branch.inlineDef = none ∧ ∃ span name resolved, type = .defined span name resolved
  const : ∀ type value, d.body = .const type value → type.references = []

section Names

variable {fqnOf : DefRef → Option Text}

theorem names_buildType (type : Ty) :
    (buildType fqnOf type).names = type.references.map fun (name, resolved) => writtenName fqnOf name resolved := by
  induction type with
  | scalar span kind => rfl
  | array span element ih => exact ih
  | fixedArray span element size ih => exact ih
  | map span key value ihKey ihValue =>
    rw [buildType, TypeDescriptor.names, Ty.references, List.map_append, ihKey, ihValue]
  | defined span name resolved => rfl

theorem typeNames_fields (fqnOf : DefRef → Option Text) (role : Role) (hrole : role ≠ .mixin) (types : List Ty) :
    (types.flatMap fun type => (buildType fqnOf type).names.map (Prod.mk role)) =
      (((types.map (Prod.mk role)).flatMap fun (role, type) =>
        type.references.map fun (name, resolved) => (⟨role, name, resolved⟩ : Reference)).filter fun r =>
          r.role ≠ .mixin).map fun r => (r.role, writtenName fqnOf r.name r.resolved) := by
  rw [List.flatMap_map, List.filter_eq_self.mpr, List.map_flatMap]
  · refine List.flatMap_congr fun type _ => ?_
    rw [names_buildType, List.map_map, List.map_map]
    rfl
  · intro r hr
    obtain ⟨type, -, hr⟩ := List.mem_flatMap.mp hr
    obtain ⟨x, -, rfl⟩ := List.mem_map.mp hr
    exact decide_eq_true hrole

theorem typeNames_buildBody {d : Def} (hplain : d.TypesPlain) (inlineFqn : Nat → Option Text) :
    (buildBody fqnOf inlineFqn d.decorators d.body).typeNames =
      d.describedReferences.map fun r => (r.role, writtenName fqnOf r.name r.resolved) := by
  unfold Def.describedReferences Def.references
  cases hbody : d.body with
  | enum baseType members => rfl
  | struct isMutable fields =>
    rw [buildBody, BodyDescriptor.typeNames, buildFields, List.flatMap_map, Body.referredTypes]
    have hfields := typeNames_fields fqnOf .field (by decide) (fields.map Field.type)
    rw [List.flatMap_map, List.map_map] at hfields
    exact hfields
  | message fields =>
    rw [buildBody, BodyDescriptor.typeNames, buildFields, List.flatMap_map, Body.referredTypes]
    have hfields := typeNames_fields fqnOf .field (by decide) (fields.map Field.type)
    rw [List.flatMap_map, List.map_map] at hfields
    exact hfields
  | union branches =>
    rw [buildBody, BodyDescriptor.typeNames, List.flatMap_map, Body.referredTypes]
    have hbranches := typeNames_fields fqnOf .branch (by decide) (branches.flatMap fun b => b.typeRef.toList)
    rw [List.flatMap_assoc, List.map_flatMap] at hbranches
    refine Eq.trans (List.flatMap_congr fun branch hbranch => ?_) hbranches
    unfold buildBranch
    dsimp only
    cases htype : branch.typeRef with
    | none => cases branch.inlineDef <;> rfl
    | some type =>
      obtain ⟨hinline, span, name, resolved, rfl⟩ := hplain.branches branches hbody branch hbranch type htype
      rw [hinline]
      rfl
  | service methods mixins =>
    rw [buildBody, BodyDescriptor.typeNames, List.flatMap_map, Body.referredTypes, List.flatMap_append,
      List.filter_append, List.map_append]
    have hmixins : ((mixins.map (Prod.mk Role.mixin)).flatMap fun (role, type) =>
        type.references.map fun (name, resolved) => (⟨role, name, resolved⟩ : Reference)).filter
          (fun r => r.role ≠ .mixin) = [] := by
      rw [List.filter_eq_nil_iff]
      intro r hr
      obtain ⟨x, hx, hr⟩ := List.mem_flatMap.mp hr
      obtain ⟨mixin, -, rfl⟩ := List.mem_map.mp hx
      obtain ⟨y, -, rfl⟩ := List.mem_map.mp hr
      exact fun h => of_decide_eq_true h rfl
    have hmethods := typeNames_fields fqnOf .method (by decide)
      (methods.flatMap fun method => [method.requestType, method.responseType])
    rw [List.flatMap_assoc, List.map_flatMap] at hmethods
    rw [hmixins, List.map_nil, List.append_nil]
    refine Eq.trans (List.flatMap_congr fun method _ => ?_) hmethods
    rw [buildMethod, List.flatMap_cons, List.flatMap_singleton, List.map_append]
  | const type value =>
    rw [buildBody, BodyDescriptor.typeNames, names_buildType, hplain.const type value hbody]
    rfl
  | decorator => rfl

theorem usages_buildDef (scope : Option Text) (d : Def) :
    (buildDef fqnOf scope d).usages = d.decoratorChains.flatten.map fun decorator => ⟨decorator.name⟩ := by
  have hbody (inlineFqn : Nat → Option Text) :
      (buildBody fqnOf inlineFqn d.decorators d.body).usages = (d.body.decoratorChains.map buildDecorators).flatten := by
    cases d.body with
    | enum baseType members =>
      rw [buildBody, BodyDescriptor.usages, Body.decoratorChains, List.flatMap_map, List.map_map]
      rfl
    | struct isMutable fields =>
      rw [buildBody, BodyDescriptor.usages, buildFields, Body.decoratorChains, List.flatMap_map, List.map_map]
      rfl
    | message fields =>
      rw [buildBody, BodyDescriptor.usages, buildFields, Body.decoratorChains, List.flatMap_map, List.map_map]
      rfl
    | union branches =>
      rw [buildBody, BodyDescriptor.usages, Body.decoratorChains, List.flatMap_map, List.map_map]
      refine List.flatMap_congr fun branch _ => ?_
      unfold buildBranch
      dsimp only
      split
      · rfl
      · split <;> rfl
    | service methods mixins =>
      rw [buildBody, BodyDescriptor.usages, Body.decoratorChains, List.flatMap_map, List.map_map]
      rfl
    | const type value => rfl
    | decorator => rfl
  rw [buildDef_eq, DefinitionDescriptor.usages, hbody, Def.decoratorChains, List.flatten_cons, List.map_append,
    List.map_flatten]
  rfl

theorem inlineNames_buildDef (scope : Option Text) (d : Def) :
    (buildDef fqnOf scope d).body.inlineNames =
      d.ownBranches.map fun x => joinDotted (some (joinDotted scope d.name)) x.2.name := by
  rw [buildDef_eq]
  unfold Def.ownBranches
  cases hbody : d.body with
  | union branches =>
    dsimp only
    rw [buildBody, BodyDescriptor.inlineNames, List.filterMap_map, List.map_filterMap]
    refine List.filterMap_congr fun branch _ => ?_
    rw [Function.comp_apply]
    unfold buildBranch
    dsimp only
    split
    · rename_i k hinline
      rw [hinline, Option.bind_some, Option.map_map]
      rfl
    · rename_i hinline
      rw [hinline, Option.bind_none]
      split <;> rfl
  | enum baseType members => rfl
  | struct isMutable fields => rfl
  | message fields => rfl
  | service methods mixins => rfl
  | const type value => rfl
  | decorator => rfl

end Names

theorem exists_of_forall₂ {α β : Type} {r : α → β → Prop} {l : List α} {l' : List β} (h : List.Forall₂ r l l') {b : β}
    (hb : b ∈ l') : ∃ a ∈ l, r a b := by
  induction h with
  | nil => cases hb
  | @cons a b' l l' hab _ ih =>
    rcases List.mem_cons.mp hb with rfl | hb
    · exact ⟨a, List.mem_cons_self, hab⟩
    · obtain ⟨a', ha', hr⟩ := ih hb
      exact ⟨a', List.mem_cons_of_mem _ ha', hr⟩

/-! ## What the names are for -/

/-- The kinds of definitions that a type may refer to. -/
def Role.legalKinds : Role → List DefKind
  | .field => [.enum, .struct, .message, .union]
  | .branch => [.struct, .message]
  | .method => [.struct, .message, .union]
  | .mixin => [.service]

namespace ParseResult

/-- A name is that of what a pointer leads to, of these kinds, and of nothing else. -/
def Identifies (set : DescriptorSet) (kinds : List DefKind) (name : Text) (resolved : Option DefRef) : Prop :=
  ∃ target descriptor, resolved = some target ∧ set.at? target = some descriptor ∧ descriptor.fqn = name ∧
    descriptor.kind ∈ kinds ∧ ∀ other descriptor', set.at? other = some descriptor' → descriptor'.fqn = name →
      other = target

variable (result : ParseResult)

/-- The names identify what references, inline branches and decorators lead to. -/
structure NamesClosed (set : DescriptorSet) : Prop where
  types : ∀ ref d descriptor, result.def? ref = some d → set.at? ref = some descriptor →
    List.Forall₂ (fun name r => name.1 = r.role ∧ Identifies set r.role.legalKinds name.2 r.resolved)
      descriptor.body.typeNames d.describedReferences
  inlines : ∀ ref d descriptor, result.def? ref = some d → set.at? ref = some descriptor →
    List.Forall₂ (fun name x => Identifies set [.struct, .message] name (some ⟨ref.schema, ref.path ++ [x.1]⟩))
      descriptor.body.inlineNames d.ownBranches
  decorators : ∀ ref d descriptor, result.def? ref = some d → set.at? ref = some descriptor →
    List.Forall₂ (fun usage decorator => Identifies set [.decorator] usage.fqn decorator.resolved)
      descriptor.usages d.decoratorChains.flatten

def Described (target : DefRef) : Prop :=
  ∃ ref d, result.def? ref = some d ∧ ((∃ r ∈ d.describedReferences, r.resolved = some target) ∨
    (∃ x ∈ d.ownBranches, target = ⟨ref.schema, ref.path ++ [x.1]⟩) ∨
      ∃ x ∈ d.decoratorChains.flatten, x.resolved = some target)

/-- What is referred to has a name for itself, and no field is of a constant. -/
structure NamedPlainly : Prop where
  unique : ∀ target, result.Described target → ∀ other d, result.def? other = some d →
    result.fqn other = result.fqn target → other = target
  decorators : ∀ ref d, result.def? ref = some d → ∀ x ∈ d.decoratorChains.flatten, ∀ target,
    x.resolved = some target → result.fqn target = some x.name
  fields : ∀ ref d, result.def? ref = some d → ∀ r ∈ d.describedReferences, r.role = .field → ∀ target e,
    r.resolved = some target → result.def? target = some e → e.kind ≠ .const

/-- What acceptance says of the pointers: they are set, and but for constants in
fields they lead to definitions of the kinds that may stand there. -/
structure Settled : Prop where
  types : ∀ ref d, result.def? ref = some d → ∀ r ∈ d.describedReferences, ∃ target e, r.resolved = some target ∧
    result.def? target = some e ∧ (e.kind ∈ r.role.legalKinds ∨ r.role = .field ∧ e.kind = .const)
  decorators : ∀ ref d, result.def? ref = some d → ∀ x ∈ d.decoratorChains.flatten, ∃ target e,
    x.resolved = some target ∧ result.def? target = some e ∧ e.kind = .decorator
  plain : ∀ ref d, result.def? ref = some d → d.TypesPlain

variable {result}

theorem identifies_descriptorBuild {target : DefRef} {e : Def} {kinds : List DefKind} {name : Text}
    (he : result.def? target = some e) :
    Identifies (descriptorBuild result) kinds name (some target) ↔
      result.fqn target = some name ∧ e.kind ∈ kinds ∧
        ∀ other d, result.def? other = some d → result.fqn other = some name → other = target := by
  have hat {ref : DefRef} {d : Def} (hd : result.def? ref = some d) :
      ∃ descriptor, (descriptorBuild result).at? ref = some descriptor ∧ result.fqn ref = some descriptor.fqn ∧
        descriptor.kind = d.kind := by
    obtain ⟨outer, hfqn, hat⟩ := at?_descriptorBuild hd
    refine ⟨_, hat, ?_, ?_⟩
    · rw [hfqn, buildDef_eq]
    · rw [buildDef_eq]
  obtain ⟨descriptor, hdescriptor, hfqn, hkind⟩ := hat he
  constructor
  · rintro ⟨target', descriptor', htarget, hdescriptor', rfl, hkinds, hunique⟩
    cases htarget
    rw [hdescriptor, Option.some.injEq] at hdescriptor'
    subst hdescriptor'
    refine ⟨hfqn, hkind ▸ hkinds, fun other d hd hother => ?_⟩
    obtain ⟨descriptor', hdescriptor', hfqn', -⟩ := hat hd
    rw [hfqn', Option.some.injEq] at hother
    exact hunique other descriptor' hdescriptor' hother
  · rintro ⟨hname, hkinds, hunique⟩
    rw [hfqn, Option.some.injEq] at hname
    refine ⟨target, descriptor, rfl, hdescriptor, hname, hkind ▸ hkinds, fun other descriptor' hother hname' => ?_⟩
    obtain ⟨d, hd⟩ := def?_of_at? hother
    obtain ⟨descriptor'', hother', hfqn', -⟩ := hat hd
    rw [hother, Option.some.injEq] at hother'
    subst hother'
    exact hunique other d hd (by rw [hfqn', hname'])

theorem ownBranch {ref : DefRef} {d : Def} {fqn : Text} (hd : result.def? ref = some d)
    (hfqn : result.fqn ref = some fqn) {x : Nat × Def} (hx : x ∈ d.ownBranches) :
    result.def? ⟨ref.schema, ref.path ++ [x.1]⟩ = some x.2 ∧
      result.fqn ⟨ref.schema, ref.path ++ [x.1]⟩ = some (joinDotted (some fqn) x.2.name) ∧
        x.2.kind ∈ [.struct, .message] := by
  obtain ⟨schema, hschema, hat⟩ := Option.bind_eq_some_iff.mp hd
  unfold Def.ownBranches at hx
  split at hx
  · rename_i branches hbody
    obtain ⟨branch, hbranch, hx⟩ := List.mem_filterMap.mp hx
    obtain ⟨k, hk, hx⟩ := Option.bind_eq_some_iff.mp hx
    obtain ⟨nested, hnested, rfl⟩ := Option.map_eq_some_iff.mp hx
    refine ⟨?_, ?_, ?_⟩
    · rw [def?_eq hschema, definitionAt_append_singleton hat, hnested]
    · rw [fqn_eq hschema] at hfqn ⊢
      rw [fqnAt_append_singleton hat hfqn, hnested, Option.map_some]
    · obtain ⟨nested', hnested', hkind⟩ := (schema.parsed ref.path d hat).inlineDef branches hbody branch hbranch k hk
      rw [hnested, Option.some.injEq] at hnested'
      subst hnested'
      rcases hkind with hkind | hkind <;> rw [hkind] <;> decide
  · cases hx

theorem fqn_isSome {ref : DefRef} {d : Def} (hd : result.def? ref = some d) : ∃ fqn, result.fqn ref = some fqn := by
  obtain ⟨outer, hfqn, -⟩ := at?_descriptorBuild hd
  exact ⟨_, hfqn⟩

theorem writtenName_resolved {name fqn : Text} {target : DefRef} (h : result.fqn target = some fqn) :
    writtenName result.fqn name (some target) = fqn := by
  rw [writtenName, Option.bind_some, h, Option.getD_some]

theorem Settled.namesClosed_iff (hsettled : result.Settled) :
    result.NamesClosed (descriptorBuild result) ↔ result.NamedPlainly := by
  constructor
  · intro h
    constructor
    · rintro target ⟨ref, d, hd, hdescribed⟩ other e he hfqn
      obtain ⟨outer, hname, hat⟩ := at?_descriptorBuild hd
      -- the name at the place where it is referred to identifies the target
      have hidentifies : ∃ kinds name, Identifies (descriptorBuild result) kinds name (some target) := by
        rcases hdescribed with ⟨r, hr, hresolved⟩ | ⟨x, hx, rfl⟩ | ⟨x, hx, hresolved⟩
        · obtain ⟨name, -, -, hname⟩ := exists_of_forall₂ (h.types ref d _ hd hat) hr
          exact ⟨_, _, hresolved ▸ hname⟩
        · obtain ⟨name, -, hname⟩ := exists_of_forall₂ (h.inlines ref d _ hd hat) hx
          exact ⟨_, _, hname⟩
        · obtain ⟨name, -, hname⟩ := exists_of_forall₂ (h.decorators ref d _ hd hat) hx
          exact ⟨_, _, hresolved ▸ hname⟩
      obtain ⟨kinds, name, hidentifies⟩ := hidentifies
      obtain ⟨target', descriptor, htarget, hdescriptor, -⟩ := id hidentifies
      cases htarget
      obtain ⟨t, ht⟩ := def?_of_at? hdescriptor
      obtain ⟨hname, -, hunique⟩ := (identifies_descriptorBuild ht).mp hidentifies
      exact hunique other e he (hfqn.trans hname)
    · intro ref d hd x hx target hresolved
      obtain ⟨outer, hname, hat⟩ := at?_descriptorBuild hd
      have hall := h.decorators ref d _ hd hat
      rw [usages_buildDef, List.forall₂_map_left_iff] at hall
      have hidentifies := List.forall₂_same.mp hall x hx
      rw [hresolved] at hidentifies
      obtain ⟨target', e, htarget, he, -⟩ := hsettled.decorators ref d hd x hx
      rw [hresolved, Option.some.injEq] at htarget
      subst htarget
      exact ((identifies_descriptorBuild he).mp hidentifies).1
    · intro ref d hd r hr hrole target e hresolved he hconst
      obtain ⟨outer, hname, hat⟩ := at?_descriptorBuild hd
      obtain ⟨name, -, -, hidentifies⟩ := exists_of_forall₂ (h.types ref d _ hd hat) hr
      rw [hresolved, hrole] at hidentifies
      have hkind := ((identifies_descriptorBuild he).mp hidentifies).2.1
      rw [hconst] at hkind
      exact absurd hkind (by decide)
  · intro h
    constructor
    · intro ref d descriptor hd hat
      obtain ⟨outer, hname, hat'⟩ := at?_descriptorBuild hd
      rw [hat, Option.some.injEq] at hat'
      rw [hat', buildDef_eq]
      dsimp only
      rw [typeNames_buildBody (hsettled.plain ref d hd), List.forall₂_map_left_iff, List.forall₂_same]
      intro r hr
      obtain ⟨target, e, hresolved, he, hkind⟩ := hsettled.types ref d hd r hr
      obtain ⟨fqn, hfqn⟩ := fqn_isSome he
      refine ⟨rfl, ?_⟩
      rw [hresolved, writtenName_resolved hfqn]
      refine (identifies_descriptorBuild he).mpr ⟨hfqn, ?_, fun other d' hd' hother => ?_⟩
      · rcases hkind with hkind | ⟨hrole, hconst⟩
        · exact hkind
        · exact absurd hconst (h.fields ref d hd r hr hrole target e hresolved he)
      · exact h.unique target ⟨ref, d, hd, .inl ⟨r, hr, hresolved⟩⟩ other d' hd' (hother.trans hfqn.symm)
    · intro ref d descriptor hd hat
      obtain ⟨outer, hname, hat'⟩ := at?_descriptorBuild hd
      rw [hat, Option.some.injEq] at hat'
      rw [hat', inlineNames_buildDef, List.forall₂_map_left_iff, List.forall₂_same]
      intro x hx
      obtain ⟨hdef, hfqn, hkind⟩ := ownBranch hd hname hx
      refine (identifies_descriptorBuild hdef).mpr ⟨hfqn, hkind, fun other d' hd' hother => ?_⟩
      exact h.unique _ ⟨ref, d, hd, .inr (.inl ⟨x, hx, rfl⟩)⟩ other d' hd' (hother.trans hfqn.symm)
    · intro ref d descriptor hd hat
      obtain ⟨outer, hname, hat'⟩ := at?_descriptorBuild hd
      rw [hat, Option.some.injEq] at hat'
      rw [hat', usages_buildDef, List.forall₂_map_left_iff, List.forall₂_same]
      intro x hx
      obtain ⟨target, e, hresolved, he, hkind⟩ := hsettled.decorators ref d hd x hx
      have hfqn := h.decorators ref d hd x hx target hresolved
      rw [hresolved]
      refine (identifies_descriptorBuild he).mpr ⟨hfqn, hkind ▸ List.mem_singleton.mpr rfl, fun other d' hd' hother => ?_⟩
      exact h.unique target ⟨ref, d, hd, .inr (.inr ⟨x, hx, hresolved⟩)⟩ other d' hd' (hother.trans hfqn.symm)

/-! ## The pointers of a result that is accepted -/

theorem linkType_defined {result : ParseResult} (context : DefRef) (kind : ResolveKind) (span : Span) (name : Text) (old : Option DefRef) :
    ∃ resolved, result.linkType context kind (.defined span name old) = .defined span name resolved := by
  unfold linkType
  rw [visitType, if_neg (by decide)]
  unfold visitDefined
  split
  · exact ⟨_, rfl⟩
  · exact ⟨_, rfl⟩
  · split
    · exact ⟨_, rfl⟩
    · split
      · exact ⟨_, rfl⟩
      · split <;> exact ⟨_, rfl⟩

theorem typesPlain_resolved (hplain : ∀ ref d, result.def? ref = some d → d.TypesPlain) {ref : DefRef} {d : Def}
    (hd : result.resolved.def? ref = some d) : d.TypesPlain := by
  unfold resolved at hd
  rw [def?_relink] at hd
  obtain ⟨old, hold, rfl⟩ := Option.map_eq_some_iff.mp hd
  have hplain := hplain ref old hold
  constructor
  · intro branches hbody branch hbranch type htype
    rw [Def.body_relink] at hbody
    cases hread : old.body with
    | union read =>
      rw [hread, Body.relink] at hbody
      cases hbody
      obtain ⟨branch', hmem, rfl⟩ := List.mem_map.mp hbranch
      obtain ⟨type', htype', rfl⟩ := Option.map_eq_some_iff.mp htype
      obtain ⟨hinline, span, name, resolved, rfl⟩ := hplain.branches read hread branch' hmem type' htype'
      exact ⟨hinline, span, name, linkType_defined _ _ _ _ _⟩
    | enum _ _ => rw [hread] at hbody; cases hbody
    | struct _ _ => rw [hread] at hbody; cases hbody
    | message _ => rw [hread] at hbody; cases hbody
    | service _ _ => rw [hread] at hbody; cases hbody
    | const _ _ => rw [hread] at hbody; cases hbody
    | decorator => rw [hread] at hbody; cases hbody
  · intro type value hbody
    rw [Def.body_relink] at hbody
    cases hread : old.body with
    | const type' value' =>
      rw [hread, Body.relink] at hbody
      cases hbody
      exact hplain.const type value hread
    | enum _ _ => rw [hread] at hbody; cases hbody
    | struct _ _ => rw [hread] at hbody; cases hbody
    | message _ => rw [hread] at hbody; cases hbody
    | union _ => rw [hread] at hbody; cases hbody
    | service _ _ => rw [hread] at hbody; cases hbody
    | decorator => rw [hread] at hbody; cases hbody

theorem kind_of_methodTypeReports {method : Method} {type : Ty} {message : String} {kind : DefKind}
    (h : result.methodTypeReports method type message = []) (hkind : result.targetKind type = some kind) :
    kind ∈ Role.method.legalKinds := by
  unfold methodTypeReports at h
  rw [hkind] at h
  cases kind
  all_goals first
    | decide
    | cases h

theorem kind_of_branchReports {context : DefRef} {branch : Branch} {type : Ty} {kind : DefKind}
    (htype : branch.typeRef = some type) (h : result.branchReports context branch = [])
    (hkind : result.targetKind (result.linkType context .fieldType type) = some kind) :
    kind ∈ Role.branch.legalKinds := by
  unfold branchReports at h
  rw [htype] at h
  dsimp only at h
  rw [hkind] at h
  cases kind
  all_goals first
    | decide
    | exact absurd (List.append_eq_nil_iff.mp h).2 (List.cons_ne_nil _ _)

theorem kind_of_not_badKind {kind : DefKind} (h : badKind .fieldType kind = false) :
    kind ∈ Role.field.legalKinds ∨ kind = .const := by
  cases kind
  all_goals first
    | exact .inl (by decide)
    | exact .inr rfl
    | cases h

theorem kind_resolved {target : DefRef} {e : Def} (h : result.resolved.def? target = some e) :
    ∃ old, result.def? target = some old ∧ old.kind = e.kind := by
  unfold resolved at h
  rw [def?_relink] at h
  obtain ⟨old, hold, rfl⟩ := Option.map_eq_some_iff.mp h
  exact ⟨old, hold, (Def.kind_relink _ _ _ _).symm⟩

theorem branch_of_referredTypes {body : Body} {type : Ty} (h : (Role.branch, type) ∈ body.referredTypes) :
    ∃ branches, body = .union branches ∧ ∃ branch ∈ branches, branch.typeRef = some type := by
  unfold Body.referredTypes at h
  split at h
  · obtain ⟨field, -, heq⟩ := List.mem_map.mp h
    cases heq
  · obtain ⟨field, -, heq⟩ := List.mem_map.mp h
    cases heq
  · rename_i branches
    obtain ⟨branch, hbranch, hmem⟩ := List.mem_flatMap.mp h
    obtain ⟨type', htype, heq⟩ := List.mem_map.mp hmem
    cases heq
    exact ⟨branches, rfl, branch, hbranch, Option.mem_toList.mp htype⟩
  · rcases List.mem_append.mp h with hmem | hmem
    · obtain ⟨method, -, hmem⟩ := List.mem_flatMap.mp hmem
      rcases List.mem_pair.mp hmem with heq | heq <;> cases heq
    · obtain ⟨mixin, -, heq⟩ := List.mem_map.mp hmem
      cases heq
  all_goals cases h

theorem method_of_referredTypes {body : Body} {type : Ty} (h : (Role.method, type) ∈ body.referredTypes) :
    ∃ methods mixins, body = .service methods mixins ∧
      ∃ method ∈ methods, type = method.requestType ∨ type = method.responseType := by
  unfold Body.referredTypes at h
  split at h
  · obtain ⟨field, -, heq⟩ := List.mem_map.mp h
    cases heq
  · obtain ⟨field, -, heq⟩ := List.mem_map.mp h
    cases heq
  · obtain ⟨branch, -, hmem⟩ := List.mem_flatMap.mp h
    obtain ⟨type', -, heq⟩ := List.mem_map.mp hmem
    cases heq
  · rename_i methods mixins
    rcases List.mem_append.mp h with hmem | hmem
    · obtain ⟨method, hmethod, hmem⟩ := List.mem_flatMap.mp hmem
      rcases List.mem_pair.mp hmem with heq | heq
      · cases heq
        exact ⟨methods, mixins, rfl, method, hmethod, .inl rfl⟩
      · cases heq
        exact ⟨methods, mixins, rfl, method, hmethod, .inr rfl⟩
    · obtain ⟨mixin, -, heq⟩ := List.mem_map.mp hmem
      cases heq
  all_goals cases h

theorem defined_of_checkServiceType {type : Ty} (h : checkServiceType type = []) :
    ∃ span name resolved, type = .defined span name resolved := by
  cases type with
  | defined span name resolved => exact ⟨span, name, resolved, rfl⟩
  | scalar _ _ => cases h
  | array _ _ => cases h
  | fixedArray _ _ _ => cases h
  | map _ _ _ => cases h

theorem methodTypes_silent {d : Def} {methods : List Method} {mixins : List Ty} (hbody : d.body = .service methods mixins)
    (h : result.validateService d = some []) {method : Method} (hmethod : method ∈ methods) {type : Ty}
    (htype : type = method.requestType ∨ type = method.responseType) :
    ∃ message, result.methodTypeReports method type message = [] := by
  unfold validateService at h
  rw [hbody] at h
  obtain ⟨mixinReports, -, hnil⟩ := Option.map_eq_some_iff.mp h
  have hmethods := List.flatMap_eq_nil_iff.mp (List.append_eq_nil_iff.mp hnil).2 method hmethod
  obtain ⟨hrequest, hresponse⟩ := List.append_eq_nil_iff.mp hmethods
  rcases htype with rfl | rfl
  · exact ⟨_, hrequest⟩
  · exact ⟨_, hresponse⟩

theorem settled_resolved {checks : DecoratorChecks} (haccepted : result.Accepted checks) (hkeeps : result.KeepsErrors)
    (hmethods : ∀ ref d, result.def? ref = some d → d.MethodsParsed)
    (hplain : ∀ ref d, result.def? ref = some d → d.TypesPlain) : result.resolved.Settled := by
  have hsilent := (first_passes_silent haccepted hkeeps).2
  obtain ⟨hservices, hdecorators⟩ := next_passes_silent haccepted hkeeps
  constructor
  · intro ref d hd r hr
    obtain ⟨hr, hrole⟩ := List.mem_filter.mp hr
    obtain ⟨target, htarget, hresolved⟩ := types_resolved hsilent hd hr
    obtain ⟨e, he⟩ := mem_registered.mp htarget
    refine ⟨target, e, hresolved, he, ?_⟩
    obtain ⟨old, hold, hkind⟩ := kind_resolved he
    have hdef := hd
    unfold resolved at hdef
    rw [def?_relink] at hdef
    obtain ⟨source, hsource, rfl⟩ := Option.map_eq_some_iff.mp hdef
    have href : ref ∈ result.registered := mem_registered.mpr ⟨source, hsource⟩
    obtain ⟨type', htype', hname⟩ := Def.mem_references.mp hr
    have hread := htype'
    rw [Def.body_relink, Body.referredTypes_relink] at hread
    obtain ⟨x, hx, heq⟩ := List.mem_map.mp hread
    obtain ⟨role, type⟩ := x
    obtain ⟨hroles, rfl⟩ := Prod.mk.inj heq
    cases hkinds : r.role with
    | field =>
      obtain ⟨hlinks, hmeans⟩ := linkedReferences_silent hsource (hsilent ref href)
      unfold linkedReferences resolved at hlinks
      rw [def?_relink, hsource, Option.map_some, Option.map_some, Option.getD_some] at hlinks
      rw [hlinks] at hr
      obtain ⟨r', hr', rfl⟩ := List.mem_map.mp hr
      obtain ⟨target', hmeans⟩ := hmeans r' hr'
      have hsame : some target' = some target := (congrArg Prod.fst hmeans.1).symm.trans hresolved
      cases hsame
      have hbad := (hmeans.2 old hold).1
      rw [hkinds] at hbad
      rw [← hkind]
      exact (kind_of_not_badKind hbad).imp_right fun hconst => ⟨rfl, hconst⟩
    | branch =>
      rw [hkinds] at hroles
      subst hroles
      obtain ⟨branches, hbody, branch, hbranch, htype⟩ := branch_of_referredTypes hx
      obtain ⟨-, span, name, old', rfl⟩ := (hplain ref source hsource).branches branches hbody branch hbranch type htype
      obtain ⟨resolved, hlink⟩ := linkType_defined ref .fieldType span name old'
      have hreports : result.branchReports ref branch = [] := by
        have hresolve := hsilent ref href
        unfold resolveDef at hresolve
        rw [hsource] at hresolve
        have hbodyReports := (List.append_eq_nil_iff.mp hresolve).1
        unfold bodyReports at hbodyReports
        rw [hbody] at hbodyReports
        exact List.flatMap_eq_nil_iff.mp hbodyReports branch hbranch
      refine .inl (kind_of_branchReports htype hreports ?_)
      have hfield : Role.branch.resolveKind = .fieldType := rfl
      rw [hfield, hlink, Ty.references, List.mem_singleton, Prod.mk.injEq] at hname
      have hpointer : resolved = some target := hname.2.symm.trans hresolved
      subst hpointer
      rw [hlink]
      unfold targetKind
      dsimp only
      rw [hold, Option.map_some, hkind]
    | method =>
      rw [hkinds] at hroles htype'
      subst hroles
      obtain ⟨read, mixins, hbody, method, hmethod, htype⟩ := method_of_referredTypes hx
      have hchecked := ((hmethods ref source hsource).distinct hbody).types method hmethod
      obtain ⟨span, name, old', rfl⟩ : ∃ span name resolved, type = .defined span name resolved := by
        rcases htype with rfl | rfl
        · exact defined_of_checkServiceType hchecked.1
        · exact defined_of_checkServiceType hchecked.2
      obtain ⟨resolved, hlink⟩ := linkType_defined ref .fieldType span name old'
      have hfield : Role.method.resolveKind = .fieldType := rfl
      rw [hfield, hlink, Ty.references, List.mem_singleton, Prod.mk.injEq] at hname
      rw [hfield, hlink] at htype'
      obtain ⟨linked, mixins', hbody', method', hmethod', htype''⟩ := method_of_referredTypes htype'
      obtain ⟨message, hreports⟩ := methodTypes_silent hbody' (hservices ref href _ hd) hmethod' htype''
      refine .inl (kind_of_methodTypeReports hreports ?_)
      have hpointer : resolved = some target := hname.2.symm.trans hresolved
      subst hpointer
      unfold targetKind
      dsimp only
      rw [he, Option.map_some]
    | mixin => exact absurd hkinds (of_decide_eq_true hrole)
  · intro ref d hd x hx
    unfold resolved at hd
    rw [def?_relink] at hd
    obtain ⟨source, hsource, rfl⟩ := Option.map_eq_some_iff.mp hd
    rw [Def.decoratorChains_relink, ← List.map_flatten] at hx
    obtain ⟨x', hx', rfl⟩ := List.mem_map.mp hx
    have hreports := hdecorators ref (mem_registered.mpr ⟨source, hsource⟩) source hsource x' hx'
    unfold decoratorReports at hreports
    unfold linkDecorator
    split at hreports
    · rename_i found hname
      obtain ⟨e, he, hkind⟩ := Option.map_eq_some_iff.mp (kind_of_resolveDecoratorName hname)
      rw [hname]
      exact ⟨found, e, rfl, he, hkind⟩
    · cases hreports
    · cases hreports
  · intro ref d hd
    exact typesPlain_resolved hplain hd

/-- The names are closed in an accepted result exactly if they are plain. -/
theorem names_closed_iff (checks : DecoratorChecks) (result : ParseResult) (haccepted : result.Accepted checks)
    (hkeeps : result.KeepsErrors) (hmethods : ∀ ref d, result.def? ref = some d → d.MethodsParsed)
    (hplain : ∀ ref d, result.def? ref = some d → d.TypesPlain) :
    result.resolved.NamesClosed (descriptorBuild result.resolved) ↔ result.resolved.NamedPlainly :=
  (settled_resolved haccepted hkeeps hmethods hplain).namesClosed_iff

end ParseResult

/-! ## Names that are accepted -/

theorem Def.clean_of_kind {d : Def} (h : d.kind ∉ [.service, .union, .const]) : d.MethodsParsed ∧ d.TypesPlain := by
  rw [Def.kind] at h
  refine ⟨fun methods mixins hbody => ?_, fun branches hbody => ?_, fun type value hbody => ?_⟩
  all_goals
    rw [hbody] at h
    simp [Body.kind] at h

namespace Sample

/-- `#decorator(d) {} @d struct A {} struct B { f: A; }`, in a package or not. -/
def decorated (package : Option Text) : ParseResult where
  schemas :=
    [.ofDefinitions package []
      [⟨['d'], nowhere, [], .visDefault, [], .decorator⟩,
        { scope ['A'] [] with decorators := [⟨['d'], nowhere, none⟩] }, record ['B'] [['A']] []] (by decide)]

theorem parsed_nestedX :
    (placesFrom 0 [record ['A'] [['X']] [scope ['X'] []]]).all fun path =>
      (definitionAt [record ['A'] [['X']] [scope ['X'] []]] path).all Def.isParsed := by
  decide

theorem parsed_scopeX :
    (placesFrom 0 [scope ['X'] []]).all fun path => (definitionAt [scope ['X'] []] path).all Def.isParsed := by
  decide

/-- `struct A { struct X {} f: X; }`, and imported by it `package A struct X {}`. -/
def twoOfAName : ParseResult where
  schemas :=
    [.ofDefinitions none [] [record ['A'] [['X']] [scope ['X'] []]] parsed_nestedX,
      .ofDefinitions (some ['A']) [⟨['a'], nowhere, some 0⟩] [scope ['X'] []] parsed_scopeX]

theorem parsed_constC :
    (placesFrom 0 [⟨['C'], nowhere, [], .visDefault, [], .const (.scalar nowhere .bool) ⟨nowhere, .bool true⟩⟩, record ['D'] [['C']] []]).all
      fun path => (definitionAt [⟨['C'], nowhere, [], .visDefault, [], .const (.scalar nowhere .bool) ⟨nowhere, .bool true⟩⟩,
        record ['D'] [['C']] []] path).all Def.isParsed := by
  decide

/-- `const bool C = true; struct D { f: C; }` -/
def fieldOfConst : ParseResult where
  schemas :=
    [.ofDefinitions none [] [⟨['C'], nowhere, [], .visDefault, [], .const (.scalar nowhere .bool) ⟨nowhere, .bool true⟩⟩,
      record ['D'] [['C']] []] parsed_constC]

end Sample

open Sample

namespace ParseResult

variable {result : ParseResult}

theorem clean_of_kinds (h : ∀ ref ∈ result.registered, ∀ d ∈ result.def? ref, d.kind ∉ [.service, .union, .const])
    (ref : DefRef) (d : Def) (hd : result.def? ref = some d) : d.MethodsParsed ∧ d.TypesPlain :=
  Def.clean_of_kind (forall_def h ref d hd)

theorem names_closed_decorated :
    (decorated none).resolved.NamesClosed (descriptorBuild (decorated none).resolved) := by
  have hclean : ∀ ref d, (decorated none).def? ref = some d → d.MethodsParsed ∧ d.TypesPlain :=
    clean_of_kinds (by decide)
  refine (names_closed_iff (fun _ => []) (decorated none) (by decide) ⟨by decide, by decide⟩
    (fun ref d hd => (hclean ref d hd).1) (fun ref d hd => (hclean ref d hd).2)).mpr ⟨?_, ?_, ?_⟩
  · intro target _ other d hd hfqn
    -- what has a name is a definition
    have htarget : target ∈ (decorated none).resolved.registered := by
      obtain ⟨fqn, hname⟩ := fqn_isSome hd
      rw [hname] at hfqn
      obtain ⟨schema, hschema, hat⟩ := Option.bind_eq_some_iff.mp hfqn.symm
      refine mem_registered.mpr (Option.isSome_iff_exists.mp ?_)
      rw [ParseResult.def?, hschema, Option.bind_some, ← fqnAt_isSome schema.package]
      exact Option.isSome_of_eq_some hat
    exact (by decide : ∀ target ∈ (decorated none).resolved.registered,
      ∀ other ∈ (decorated none).resolved.registered,
        (decorated none).resolved.fqn other = (decorated none).resolved.fqn target → other = target) target htarget other
      (mem_registered.mpr ⟨d, hd⟩) hfqn
  · intro ref d hd
    exact (by decide : ∀ ref ∈ (decorated none).resolved.registered, ∀ d ∈ (decorated none).resolved.def? ref,
      ∀ x ∈ d.decoratorChains.flatten, ∀ target ∈ x.resolved, (decorated none).resolved.fqn target = some x.name) ref
      (mem_registered.mpr ⟨d, hd⟩) d hd
  · intro ref d hd r hr _ target e hresolved he
    exact (by decide : ∀ ref ∈ (decorated none).resolved.registered, ∀ d ∈ (decorated none).resolved.def? ref,
      ∀ r ∈ d.describedReferences, ∀ target ∈ r.resolved, ∀ e ∈ (decorated none).resolved.def? target,
        e.kind ≠ .const) ref (mem_registered.mpr ⟨d, hd⟩) d hd r hr target hresolved e he

/-- A decorator without its package, a name of two, and a constant as a type. -/
theorem names_closed_fails :
    ((decorated (some ['p'])).Accepted (fun _ => []) ∧
      ¬(decorated (some ['p'])).resolved.NamesClosed (descriptorBuild (decorated (some ['p'])).resolved)) ∧
    (twoOfAName.Accepted (fun _ => []) ∧ ¬twoOfAName.resolved.NamesClosed (descriptorBuild twoOfAName.resolved)) ∧
      fieldOfConst.Accepted (fun _ => []) ∧
        ¬fieldOfConst.resolved.NamesClosed (descriptorBuild fieldOfConst.resolved) := by
  refine ⟨⟨by decide, fun h => ?_⟩, ⟨by decide, fun h => ?_⟩, by decide, fun h => ?_⟩
  · have hclean : ∀ ref d, (decorated (some ['p'])).def? ref = some d → d.MethodsParsed ∧ d.TypesPlain :=
      clean_of_kinds (by decide)
    have haccepted : (decorated (some ['p'])).Accepted (fun _ => []) := by decide
    have hsettled := settled_resolved haccepted ⟨by decide, by decide⟩
      (fun ref d hd => (hclean ref d hd).1) (fun ref d hd => (hclean ref d hd).2)
    have hplain := hsettled.namesClosed_iff.mp h
    have hname := hplain.decorators ⟨0, [1]⟩ _ rfl ⟨['d'], nowhere, some ⟨0, [0]⟩⟩ (by decide) _ rfl
    exact absurd hname (by decide)
  · have hclean : ∀ ref d, twoOfAName.def? ref = some d → d.MethodsParsed ∧ d.TypesPlain :=
      clean_of_kinds (by decide)
    have haccepted : twoOfAName.Accepted (fun _ => []) := by decide
    have hsettled := settled_resolved haccepted ⟨by decide, by decide⟩
      (fun ref d hd => (hclean ref d hd).1) (fun ref d hd => (hclean ref d hd).2)
    have hplain := hsettled.namesClosed_iff.mp h
    have hdescribed : twoOfAName.resolved.Described ⟨0, [0, 0]⟩ :=
      ⟨⟨0, [0]⟩, _, rfl, .inl ⟨⟨.field, ['X'], some ⟨0, [0, 0]⟩⟩, by decide, rfl⟩⟩
    exact absurd (hplain.unique ⟨0, [0, 0]⟩ hdescribed ⟨1, [0]⟩ _ rfl (by decide)) (by decide)
  · obtain ⟨descriptor, hat⟩ : ∃ descriptor, (descriptorBuild fieldOfConst.resolved).at? ⟨0, [1]⟩ = some descriptor :=
      ⟨_, rfl⟩
    have hreference : (⟨.field, ['C'], some ⟨0, [0]⟩⟩ : Reference) ∈
        ((fieldOfConst.resolved.def? ⟨0, [1]⟩).map Def.describedReferences).getD [] := by decide
    obtain ⟨name, -, -, target, e, htarget, he, -, hkind, -⟩ :=
      exists_of_forall₂ (h.types ⟨0, [1]⟩ _ descriptor rfl hat) hreference
    cases htarget
    have hconst : ((descriptorBuild fieldOfConst.resolved).at? ⟨0, [0]⟩).map DefinitionDescriptor.kind = some .const := by
      decide
    rw [he, Option.map_some, Option.some.injEq] at hconst
    rw [hconst] at hkind
    exact absurd hkind (by decide)

end ParseResult

end Bebop.Compiler
