import Bebop.Compiler.Resolve

/-!
# Bebop — definitions with other pointers

The validator sets the pointers of types and of decorators, and leaves everything
else of a definition as the parser made it. `relink` is a parse result with other
types and decorators: the places of the definitions, their names, kinds and
visibility are the same.
-/

namespace Bebop.Compiler

/-- The body with other types and decorators. The type of a constant is left. -/
def Body.relink (type : ResolveKind → Ty → Ty) (decorator : Decorator → Decorator) : Body → Body
  | .enum baseType members =>
    .enum baseType (members.map fun member => { member with decorators := member.decorators.map decorator })
  | .struct isMutable fields =>
    .struct isMutable (fields.map fun field =>
      { field with type := type .fieldType field.type, decorators := field.decorators.map decorator })
  | .message fields =>
    .message (fields.map fun field =>
      { field with type := type .fieldType field.type, decorators := field.decorators.map decorator })
  | .union branches =>
    .union (branches.map fun branch =>
      { branch with
        typeRef := branch.typeRef.map (type .fieldType)
        decorators := branch.decorators.map decorator })
  | .service methods mixins =>
    .service (methods.map fun method =>
      { method with
        requestType := type .fieldType method.requestType
        responseType := type .fieldType method.responseType
        decorators := method.decorators.map decorator })
      (mixins.map (type .mixinType))
  | .const constType value => .const constType value
  | .decorator => .decorator

mutual

/-- A definition and those nested in it, with other types and decorators. -/
def Def.relink (type : List Nat → ResolveKind → Ty → Ty) (decorator : Decorator → Decorator) (path : List Nat) :
    Def → Def
  | ⟨name, span, decorators, visibility, nestedDefs, body⟩ =>
    ⟨name, span, decorators.map decorator, visibility, relinkAll type decorator path 0 nestedDefs,
      body.relink (type path) decorator⟩

/-- The definitions of one scope, from the `i`-th on. -/
def relinkAll (type : List Nat → ResolveKind → Ty → Ty) (decorator : Decorator → Decorator) (scope : List Nat) :
    Nat → List Def → List Def
  | _, [] => []
  | i, d :: ds => d.relink type decorator (scope ++ [i]) :: relinkAll type decorator scope (i + 1) ds

end

section Relink

variable (type : List Nat → ResolveKind → Ty → Ty) (decorator : Decorator → Decorator)

@[simp] theorem Body.kind_relink (type : ResolveKind → Ty → Ty) (body : Body) :
    (body.relink type decorator).kind = body.kind := by
  cases body <;> rfl

theorem Body.decoratorChains_relink (type : ResolveKind → Ty → Ty) (decorator : Decorator → Decorator) (body : Body) :
    (body.relink type decorator).decoratorChains = body.decoratorChains.map (List.map decorator) := by
  cases body with
  | enum baseType members => rw [Body.relink, decoratorChains, decoratorChains, List.map_map, List.map_map]; rfl
  | struct isMutable fields => rw [Body.relink, decoratorChains, decoratorChains, List.map_map, List.map_map]; rfl
  | message fields => rw [Body.relink, decoratorChains, decoratorChains, List.map_map, List.map_map]; rfl
  | union branches => rw [Body.relink, decoratorChains, decoratorChains, List.map_map, List.map_map]; rfl
  | service methods mixins => rw [Body.relink, decoratorChains, decoratorChains, List.map_map, List.map_map]; rfl
  | const constType value => rfl
  | decorator => rfl

theorem Body.referredTypes_relink (type : ResolveKind → Ty → Ty) (decorator : Decorator → Decorator) (body : Body) :
    (body.relink type decorator).referredTypes =
      body.referredTypes.map fun (role, ty) => (role, type role.resolveKind ty) := by
  cases body with
  | enum baseType members => rfl
  | struct isMutable fields =>
    rw [Body.relink, referredTypes, referredTypes, List.map_map, List.map_map]
    rfl
  | message fields =>
    rw [Body.relink, referredTypes, referredTypes, List.map_map, List.map_map]
    rfl
  | union branches =>
    rw [Body.relink, referredTypes, referredTypes, List.flatMap_map, List.map_flatMap]
    refine List.flatMap_congr fun branch _ => ?_
    cases branch.typeRef <;> rfl
  | service methods mixins =>
    rw [Body.relink, referredTypes, referredTypes, List.flatMap_map, List.map_append, List.map_flatMap,
      List.map_map, List.map_map]
    rfl
  | const constType value => rfl
  | decorator => rfl

theorem getElem?_relinkAll (scope : List Nat) (i : Nat) (defs : List Def) (k : Nat) :
    (relinkAll type decorator scope i defs)[k]? =
      defs[k]?.map (Def.relink type decorator (scope ++ [i + k])) := by
  induction defs generalizing i k with
  | nil => rfl
  | cons d defs ih =>
    rw [relinkAll]
    cases k with
    | zero => rfl
    | succ k =>
      rw [List.getElem?_cons_succ, List.getElem?_cons_succ, ih]
      have hplace : i + 1 + k = i + (k + 1) := by omega
      rw [hplace]

variable (path : List Nat) (d : Def)

@[simp] theorem Def.name_relink : (d.relink type decorator path).name = d.name := by
  cases d
  rw [Def.relink]

@[simp] theorem Def.decorators_relink :
    (d.relink type decorator path).decorators = d.decorators.map decorator := by
  cases d
  rw [Def.relink]

@[simp] theorem Def.nestedDefs_relink :
    (d.relink type decorator path).nestedDefs = relinkAll type decorator path 0 d.nestedDefs := by
  cases d
  rw [Def.relink]

@[simp] theorem Def.body_relink : (d.relink type decorator path).body = d.body.relink (type path) decorator := by
  cases d
  rw [Def.relink]

@[simp] theorem Def.kind_relink : (d.relink type decorator path).kind = d.kind := by
  rw [Def.kind, Def.body_relink, Body.kind_relink, Def.kind]

theorem Def.decoratorChains_relink :
    (d.relink type decorator path).decoratorChains = d.decoratorChains.map (List.map decorator) := by
  rw [Def.decoratorChains, Def.decorators_relink, Def.body_relink, Body.decoratorChains_relink]
  rfl

theorem definitionAt_relinkAll (scope : List Nat) (defs : List Def) :
    definitionAt (relinkAll type decorator scope 0 defs) path =
      (definitionAt defs path).map (Def.relink type decorator (scope ++ path)) := by
  induction path generalizing scope defs with
  | nil => rfl
  | cons i path ih =>
    cases path with
    | nil =>
      rw [definitionAt, definitionAt, getElem?_relinkAll, Nat.zero_add]
    | cons j path =>
      rw [definitionAt, definitionAt, getElem?_relinkAll, Nat.zero_add, Option.bind_map]
      cases defs[i]? with
      | none => rfl
      | some d =>
        rw [Option.bind_some, Option.bind_some, Function.comp_apply, Def.nestedDefs_relink, ih,
          List.append_assoc]
        rfl

theorem fqnAt_relinkAll (scope : List Nat) (outer : Option Text) (defs : List Def) :
    fqnAt outer (relinkAll type decorator scope 0 defs) path = fqnAt outer defs path := by
  induction path generalizing scope outer defs with
  | nil => rfl
  | cons i path ih =>
    cases path with
    | nil =>
      rw [fqnAt, fqnAt, getElem?_relinkAll, Option.map_map]
      refine congrArg (Option.map · defs[i]?) (funext fun d => ?_)
      rw [Function.comp_apply, Def.name_relink]
    | cons j path =>
      rw [fqnAt, fqnAt, getElem?_relinkAll, Option.bind_map]
      refine congrArg (Option.bind defs[i]?) (funext fun d => ?_)
      rw [Function.comp_apply, Def.name_relink, Def.nestedDefs_relink, ih]

theorem Def.Parsed.relink {d : Def} (h : d.Parsed) : (d.relink type decorator path).Parsed := by
  refine ⟨?_, ?_, fun branches hbody branch hbranch k hk => ?_, fun hkind => ?_⟩
  · rw [Def.name_relink]
    exact h.name_ne_nil
  · rw [Def.name_relink]
    exact h.dot_notMem_name
  · rw [Def.body_relink] at hbody
    cases hold : d.body with
    | union old =>
      rw [hold, Body.relink, Body.union.injEq] at hbody
      rw [← hbody] at hbranch
      obtain ⟨oldBranch, hmem, rfl⟩ := List.mem_map.mp hbranch
      obtain ⟨nested, hnested, hkind⟩ := h.inlineDef old hold oldBranch hmem k hk
      rw [Def.nestedDefs_relink, getElem?_relinkAll, hnested]
      refine ⟨_, rfl, ?_⟩
      rw [Def.kind_relink]
      exact hkind
    | enum _ _ => rw [hold, Body.relink] at hbody; cases hbody
    | struct _ _ => rw [hold, Body.relink] at hbody; cases hbody
    | message _ => rw [hold, Body.relink] at hbody; cases hbody
    | service _ _ => rw [hold, Body.relink] at hbody; cases hbody
    | const _ _ => rw [hold, Body.relink] at hbody; cases hbody
    | decorator => rw [hold, Body.relink] at hbody; cases hbody
  · rw [Def.kind_relink] at hkind
    rw [Def.decorators_relink, h.decorators hkind, List.map_nil]

def Schema.relink (schema : Schema) : Schema where
  package := schema.package
  imports := schema.imports
  definitions := relinkAll type decorator [] 0 schema.definitions
  sortedDefs := schema.sortedDefs
  log := schema.log
  log_holds := schema.log_holds
  registered_nodup := schema.registered_nodup
  registered := fun path => by
    rw [definitionAt_relinkAll, Option.isSome_map]
    exact schema.registered path
  parsed := fun path d hd => by
    rw [definitionAt_relinkAll] at hd
    obtain ⟨old, hold, rfl⟩ := Option.map_eq_some_iff.mp hd
    exact (schema.parsed path old hold).relink _ _ _

end Relink

namespace ParseResult

variable (result : ParseResult) (type : DefRef → ResolveKind → Ty → Ty) (decorator : Nat → Decorator → Decorator)

/-- A parse result with other types, by place, and other decorators, by schema. -/
def relink : ParseResult where
  schemas := result.schemas.mapIdx fun s schema => schema.relink (fun path => type ⟨s, path⟩) (decorator s)

theorem getElem?_schemas_relink (s : Nat) :
    (result.relink type decorator).schemas[s]? =
      result.schemas[s]?.map fun schema => schema.relink (fun path => type ⟨s, path⟩) (decorator s) :=
  List.getElem?_mapIdx

theorem def?_relink (ref : DefRef) :
    (result.relink type decorator).def? ref =
      (result.def? ref).map (Def.relink (fun path => type ⟨ref.schema, path⟩) (decorator ref.schema) ref.path) := by
  rw [def?, def?, getElem?_schemas_relink, Option.bind_map, Option.map_bind]
  cases result.schemas[ref.schema]? with
  | none => rfl
  | some schema =>
    rw [Option.bind_some, Option.bind_some, Function.comp_apply, Function.comp_apply]
    exact definitionAt_relinkAll _ _ _ [] schema.definitions

theorem registered_relink : (result.relink type decorator).registered = result.registered := by
  refine congrArg List.flatten (List.ext_getElem? fun s => ?_)
  rw [List.getElem?_mapIdx, List.getElem?_mapIdx, getElem?_schemas_relink, Option.map_map]
  rfl

theorem fqn_relink (ref : DefRef) : (result.relink type decorator).fqn ref = result.fqn ref := by
  rw [fqn, fqn, getElem?_schemas_relink, Option.bind_map]
  refine congrArg (Option.bind result.schemas[ref.schema]?) (funext fun schema => ?_)
  exact fqnAt_relinkAll _ _ _ [] schema.package schema.definitions

end ParseResult

/-! ## The same pointers -/

section Congr

theorem Body.relink_congr {type type' : ResolveKind → Ty → Ty} {decorator decorator' : Decorator → Decorator}
    {body : Body} (htype : ∀ x ∈ body.referredTypes, type x.1.resolveKind x.2 = type' x.1.resolveKind x.2)
    (hdecorator : ∀ x ∈ body.decoratorChains.flatten, decorator x = decorator' x) :
    body.relink type decorator = body.relink type' decorator' := by
  have hchain {chain : List Decorator} (h : chain ∈ body.decoratorChains) :
      chain.map decorator = chain.map decorator' :=
    List.map_congr_left fun x hx => hdecorator x (List.mem_flatten.mpr ⟨chain, h, hx⟩)
  cases body with
  | enum baseType members =>
    refine congrArg (Body.enum baseType) (List.map_congr_left fun member hmember => ?_)
    rw [hchain (List.mem_map.mpr ⟨member, hmember, rfl⟩)]
  | struct isMutable fields =>
    refine congrArg (Body.struct isMutable) (List.map_congr_left fun field hfield => ?_)
    have hsame : type .fieldType field.type = type' .fieldType field.type :=
      htype (.field, field.type) (List.mem_map.mpr ⟨field, hfield, rfl⟩)
    rw [hchain (List.mem_map.mpr ⟨field, hfield, rfl⟩), hsame]
  | message fields =>
    refine congrArg Body.message (List.map_congr_left fun field hfield => ?_)
    have hsame : type .fieldType field.type = type' .fieldType field.type :=
      htype (.field, field.type) (List.mem_map.mpr ⟨field, hfield, rfl⟩)
    rw [hchain (List.mem_map.mpr ⟨field, hfield, rfl⟩), hsame]
  | union branches =>
    refine congrArg Body.union (List.map_congr_left fun branch hbranch => ?_)
    rw [hchain (List.mem_map.mpr ⟨branch, hbranch, rfl⟩)]
    have hsame : branch.typeRef.map (type .fieldType) = branch.typeRef.map (type' .fieldType) := by
      cases href : branch.typeRef with
      | none => rfl
      | some ty =>
        refine congrArg some (htype (.branch, ty) (List.mem_flatMap.mpr ⟨branch, hbranch, ?_⟩))
        rw [href]
        exact List.mem_singleton.mpr rfl
    rw [hsame]
  | service methods mixins =>
    have hmethods : methods.map (fun method => { method with
          requestType := type .fieldType method.requestType
          responseType := type .fieldType method.responseType
          decorators := method.decorators.map decorator }) =
        methods.map (fun method => { method with
          requestType := type' .fieldType method.requestType
          responseType := type' .fieldType method.responseType
          decorators := method.decorators.map decorator' }) := by
      refine List.map_congr_left fun method hmethod => ?_
      have hmem (x : Role × Ty) (hx : x ∈ [(Role.method, method.requestType), (.method, method.responseType)]) :
          x ∈ (Body.service methods mixins).referredTypes :=
        List.mem_append_left _ (List.mem_flatMap.mpr ⟨method, hmethod, hx⟩)
      have hrequest := htype _ (hmem _ (List.mem_pair.mpr (.inl rfl)))
      have hresponse := htype _ (hmem _ (List.mem_pair.mpr (.inr rfl)))
      dsimp only [Role.resolveKind] at hrequest hresponse
      rw [hchain (List.mem_map.mpr ⟨method, hmethod, rfl⟩), hrequest, hresponse]
    have hmixins : mixins.map (type .mixinType) = mixins.map (type' .mixinType) :=
      List.map_congr_left fun mixin hmixin =>
        htype (.mixin, mixin) (List.mem_append_right _ (List.mem_map.mpr ⟨mixin, hmixin, rfl⟩))
    rw [relink, relink, hmethods, hmixins]
  | const constType value => rfl
  | decorator => rfl

variable {type type' : List Nat → ResolveKind → Ty → Ty} {decorator decorator' : Decorator → Decorator}

mutual

theorem Def.relink_congr (d : Def) (path : List Nat)
    (h : ∀ rest e, (rest = [] ∧ d = e ∨ definitionAt d.nestedDefs rest = some e) →
      e.body.relink (type (path ++ rest)) decorator = e.body.relink (type' (path ++ rest)) decorator' ∧
        e.decorators.map decorator = e.decorators.map decorator') :
    d.relink type decorator path = d.relink type' decorator' path := by
  match d with
  | ⟨name, span, decorators, visibility, nestedDefs, body⟩ =>
    have hown := h [] _ (.inl ⟨rfl, rfl⟩)
    rw [List.append_nil] at hown
    have hnested := relinkAll_congr nestedDefs path 0 fun k rest e he => by
      rw [Nat.zero_add]
      exact h (k :: rest) e (.inr he)
    rw [Def.relink, Def.relink, hown.1, hown.2, hnested]

theorem relinkAll_congr (defs : List Def) (scope : List Nat) (i : Nat)
    (h : ∀ k rest e, definitionAt defs (k :: rest) = some e →
      e.body.relink (type (scope ++ (i + k) :: rest)) decorator =
          e.body.relink (type' (scope ++ (i + k) :: rest)) decorator' ∧
        e.decorators.map decorator = e.decorators.map decorator') :
    relinkAll type decorator scope i defs = relinkAll type' decorator' scope i defs := by
  match defs with
  | [] => rfl
  | d :: ds =>
    have hfirst := Def.relink_congr d (scope ++ [i]) fun rest e he => by
      rw [List.append_assoc, List.singleton_append]
      refine h 0 rest e ?_
      rcases he with ⟨rfl, rfl⟩ | he
      · rfl
      · cases rest with
        | nil => cases he
        | cons j rest => exact definitionAt_cons_cons.mpr ⟨d, rfl, he⟩
    have hrest := relinkAll_congr ds scope (i + 1) fun k rest e he => by
      have hplace : i + 1 + k = i + (k + 1) := by omega
      rw [hplace]
      refine h (k + 1) rest e ?_
      cases rest with
      | nil => exact he
      | cons j rest => exact definitionAt_cons_cons.mpr (definitionAt_cons_cons.mp he)
    rw [relinkAll, relinkAll, hfirst, hrest]

end

end Congr

end Bebop.Compiler
