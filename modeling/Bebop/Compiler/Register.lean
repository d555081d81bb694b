import Bebop.Compiler.Schema

/-!
# Bebop — the order of registration

The parser registers a definition at its closing brace, after the definitions
that are nested in it (`bebop__schema_add_def`, `bebop__def_add_nested`).
`Schema.ofDefinitions` is the schema of a file whose definitions are given.
-/

namespace Bebop.Compiler

mutual

/-- The places in a definition in the order in which the parser registers them. -/
def Def.places (i : Nat) : Def → List (List Nat)
  | ⟨_, _, _, _, nestedDefs, _⟩ => (placesFrom 0 nestedDefs).map (List.cons i) ++ [[i]]

/-- The places in the definitions of a scope, from the `i`-th on. -/
def placesFrom : Nat → List Def → List (List Nat)
  | _, [] => []
  | i, d :: ds => d.places i ++ placesFrom (i + 1) ds

end

theorem Def.places_eq (i : Nat) (d : Def) : d.places i = (placesFrom 0 d.nestedDefs).map (List.cons i) ++ [[i]] := by
  cases d
  rw [Def.places]

theorem definitionAt_cons_isSome {defs : List Def} {i : Nat} {path : List Nat} :
    (definitionAt defs (i :: path)).isSome ↔
      ∃ d, defs[i]? = some d ∧ (path = [] ∨ (definitionAt d.nestedDefs path).isSome) := by
  cases path with
  | nil =>
    rw [definitionAt, Option.isSome_iff_exists]
    exact exists_congr fun d => ⟨fun hd => ⟨hd, .inl rfl⟩, And.left⟩
  | cons j path =>
    rw [Option.isSome_iff_exists]
    constructor
    · rintro ⟨d, hd⟩
      obtain ⟨parent, hparent, hnested⟩ := definitionAt_cons_cons.mp hd
      exact ⟨parent, hparent, .inr (Option.isSome_iff_exists.mpr ⟨d, hnested⟩)⟩
    · rintro ⟨parent, hparent, hnil | hnested⟩
      · cases hnil
      · obtain ⟨d, hd⟩ := Option.isSome_iff_exists.mp hnested
        exact ⟨d, definitionAt_cons_cons.mpr ⟨parent, hparent, hd⟩⟩

mutual

theorem Def.mem_places (d : Def) (i : Nat) (path : List Nat) :
    path ∈ d.places i ↔ ∃ rest, path = i :: rest ∧ (rest = [] ∨ (definitionAt d.nestedDefs rest).isSome) := by
  match d with
  | ⟨name, span, decorators, visibility, nestedDefs, body⟩ =>
    rw [Def.places_eq, List.mem_append, List.mem_map, List.mem_singleton]
    constructor
    · rintro (⟨rest, hrest, rfl⟩ | rfl)
      · obtain ⟨k, more, rfl, hsome⟩ := (mem_placesFrom nestedDefs 0 rest).mp hrest
        rw [Nat.zero_add]
        exact ⟨_, rfl, .inr hsome⟩
      · exact ⟨[], rfl, .inl rfl⟩
    · rintro ⟨rest, rfl, rfl | hsome⟩
      · exact .inr rfl
      · cases rest with
        | nil => cases hsome
        | cons k more =>
          refine .inl ⟨_, (mem_placesFrom nestedDefs 0 _).mpr ⟨k, more, ?_, hsome⟩, rfl⟩
          rw [Nat.zero_add]

theorem mem_placesFrom (defs : List Def) (i : Nat) (path : List Nat) :
    path ∈ placesFrom i defs ↔ ∃ k rest, path = (i + k) :: rest ∧ (definitionAt defs (k :: rest)).isSome := by
  match defs with
  | [] =>
    rw [placesFrom]
    refine ⟨nofun, fun ⟨k, rest, _, hsome⟩ => ?_⟩
    obtain ⟨d, hd, _⟩ := definitionAt_cons_isSome.mp hsome
    cases hd
  | d :: ds =>
    rw [placesFrom, List.mem_append, Def.mem_places d i path, mem_placesFrom ds (i + 1) path]
    constructor
    · rintro (⟨rest, rfl, hrest⟩ | ⟨k, rest, rfl, hsome⟩)
      · exact ⟨0, rest, rfl, definitionAt_cons_isSome.mpr ⟨d, rfl, hrest⟩⟩
      · refine ⟨k + 1, rest, by rw [Nat.add_right_comm, Nat.add_assoc], ?_⟩
        obtain ⟨e, he, hrest⟩ := definitionAt_cons_isSome.mp hsome
        exact definitionAt_cons_isSome.mpr ⟨e, he, hrest⟩
    · rintro ⟨k, rest, rfl, hsome⟩
      obtain ⟨e, he, hrest⟩ := definitionAt_cons_isSome.mp hsome
      cases k with
      | zero =>
        rw [List.getElem?_cons_zero, Option.some.injEq] at he
        subst he
        exact .inl ⟨rest, rfl, hrest⟩
      | succ k =>
        refine .inr ⟨k, rest, by rw [Nat.add_right_comm, Nat.add_assoc], ?_⟩
        exact definitionAt_cons_isSome.mpr ⟨e, he, hrest⟩

end

mutual

theorem Def.nodup_places (d : Def) (i : Nat) : (d.places i).Nodup := by
  match d with
  | ⟨name, span, decorators, visibility, nestedDefs, body⟩ =>
    rw [Def.places_eq]
    refine List.nodup_append.mpr ⟨?_, List.nodup_singleton _, ?_⟩
    · exact (nodup_placesFrom nestedDefs 0).map fun _ _ h => (List.cons.inj h).2
    · rintro path hpath path' hpath' rfl
      obtain ⟨rest, hrest, rfl⟩ := List.mem_map.mp hpath
      rw [List.mem_singleton, List.cons.injEq] at hpath'
      obtain ⟨k, more, hmore, -⟩ := (mem_placesFrom _ _ _).mp hrest
      rw [hpath'.2] at hmore
      cases hmore

theorem nodup_placesFrom (defs : List Def) (i : Nat) : (placesFrom i defs).Nodup := by
  match defs with
  | [] => exact List.nodup_nil
  | d :: ds =>
    rw [placesFrom]
    refine List.nodup_append.mpr ⟨d.nodup_places i, nodup_placesFrom ds (i + 1), ?_⟩
    rintro path hpath path' hpath' rfl
    obtain ⟨rest, rfl, -⟩ := (d.mem_places i path).mp hpath
    obtain ⟨k, more, hmore, -⟩ := (mem_placesFrom ds (i + 1) _).mp hpath'
    have hfirst := (List.cons.inj hmore).1
    omega

end

/-- `Def.Parsed`, as a check. -/
def Def.isParsed (d : Def) : Bool :=
  d.name ≠ [] && '.' ∉ d.name &&
    (match d.body with
      | .union branches =>
        branches.all fun branch =>
          match branch.inlineDef with
          | none => true
          | some k => d.nestedDefs[k]?.any fun nested => nested.kind = .struct || nested.kind = .message
      | _ => true) &&
    (d.kind ≠ .decorator || d.decorators.isEmpty)

theorem Def.Parsed.of_isParsed {d : Def} (h : d.isParsed = true) : d.Parsed := by
  unfold Def.isParsed at h
  rw [Bool.and_eq_true, Bool.and_eq_true, Bool.and_eq_true] at h
  obtain ⟨⟨⟨hname, hdot⟩, hbody⟩, hdecorators⟩ := h
  refine ⟨of_decide_eq_true hname, of_decide_eq_true hdot, fun branches hunion branch hbranch k hk => ?_,
    fun hkind => ?_⟩
  · rw [hunion] at hbody
    have hbranch' := List.all_eq_true.mp hbody branch hbranch
    rw [hk] at hbranch'
    obtain ⟨nested, hnested, hor⟩ := (Option.any_eq_true _ _).mp hbranch'
    rw [Bool.or_eq_true, decide_eq_true_iff, decide_eq_true_iff] at hor
    exact ⟨nested, hnested, hor⟩
  · rw [hkind] at hdecorators
    exact List.isEmpty_iff.mp hdecorators

/-- The schema of a file with these imports and definitions, and no reports. -/
def Schema.ofDefinitions (package : Option Text) (imports : List Import) (definitions : List Def)
    (parsed : (placesFrom 0 definitions).all fun path => (definitionAt definitions path).all Def.isParsed) :
    Schema where
  package := package
  imports := imports
  definitions := definitions
  sortedDefs := placesFrom 0 definitions
  log := .create none
  log_holds := ⟨[], SchemaLog.holds_create none⟩
  registered_nodup := nodup_placesFrom definitions 0
  registered := fun path => by
    rw [mem_placesFrom]
    cases path with
    | nil => exact ⟨nofun, nofun⟩
    | cons i path =>
      constructor
      · rintro ⟨k, rest, hpath, hsome⟩
        rw [Nat.zero_add] at hpath
        rwa [hpath]
      · intro hsome
        exact ⟨i, path, by rw [Nat.zero_add], hsome⟩
  parsed := fun path d hd => by
    refine Def.Parsed.of_isParsed ?_
    have hmem : path ∈ placesFrom 0 definitions := by
      rw [mem_placesFrom]
      cases path with
      | nil => cases hd
      | cons i path => exact ⟨i, path, by rw [Nat.zero_add], by rw [hd]; rfl⟩
    have hall := List.all_eq_true.mp parsed path hmem
    rwa [hd] at hall

theorem ParseResult.forall_def {result : ParseResult} {p : DefRef → Def → Prop}
    (h : ∀ ref ∈ result.registered, ∀ d ∈ result.def? ref, p ref d) (ref : DefRef) (d : Def)
    (hd : result.def? ref = some d) : p ref d :=
  h ref (mem_registered.mpr ⟨d, hd⟩) d hd

/-! ## Definitions to try things on -/

namespace Sample

def nowhere : Span := ⟨0, 0, 0, 0, 0, 0⟩

/-- A struct with fields of the given types, and definitions in it. -/
def record (name : Text) (types : List Text) (nestedDefs : List Def) : Def :=
  ⟨name, nowhere, [], .visDefault, nestedDefs,
    .struct false (types.map fun type => ⟨['f'], nowhere, [], .defined nowhere type none, 0⟩)⟩

def scope (name : Text) (nestedDefs : List Def) : Def := record name [] nestedDefs

end Sample

end Bebop.Compiler
