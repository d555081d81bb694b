import Bebop.TypeScript.GeneratorOutput

/-!
# Bebop — collisions in generated TypeScript

Whether two definitions of a schema are exported under one name, and whether two
schemas are written to one file: the generator does not look. Its own checks are of the
names in a definition (`requireUniqueNames`).
-/

namespace Bebop.TypeScript

open Bebop.Compiler

/-! ## The names of a declaration -/

section Names

variable {schema : SchemaDescriptor} {d e : DefinitionDescriptor}

theorem declarations_eq (schema : SchemaDescriptor) (hkind : d.kind ≠ .decorator) :
    ∃ declaration, declarations schema d = [declaration] ∧ ∀ name, name ∈ declaration.exports ↔
      name = exportedName schema d ∨ ∃ suffix ∈ suffixes d, name = exportedName schema d ++ suffix := by
  have hplain : ∀ name, name ∈ exportedName schema d :: (suffixes d).map (fun suffix => exportedName schema d ++ suffix) ↔
      name = exportedName schema d ∨ ∃ suffix ∈ suffixes d, name = exportedName schema d ++ suffix := by
    intro name
    simp only [List.mem_cons, List.mem_map, eq_comm]
  obtain ⟨kind, visibility, name, fqn, decorators, nested, body⟩ := d
  cases kind with
  | service =>
    cases body with
    | serviceDef methods =>
      refine ⟨_, rfl, fun other => (List.Perm.mem_iff ?_).trans (hplain other)⟩
      -- the name comes second
      refine (List.Perm.swap _ _ _).trans (.cons _ ?_)
      unfold suffixes
      simp only [List.map_cons, List.map_append, apply_ite (List.map _), List.map_nil]
      exact .refl _
    | _ => exact ⟨_, rfl, hplain⟩
  | decorator => exact absurd rfl hkind
  | _ => exact ⟨_, rfl, hplain⟩

theorem declarations_decorator (hkind : d.kind = .decorator) : declarations schema d = [] := by
  obtain ⟨kind, visibility, name, fqn, decorators, nested, body⟩ := d
  obtain rfl : kind = .decorator := hkind
  rfl

def allSuffixes : List Text := [viewSuffix, reflectionSuffix, handlerSuffix, batchSuffix, futuresSuffix, clientSuffix]

theorem mem_allSuffixes {suffix : Text} (h : suffix ∈ suffixes d) : suffix ∈ allSuffixes := by
  obtain ⟨kind, visibility, name, fqn, decorators, nested, body⟩ := d
  cases kind with
  | service =>
    cases body with
    | serviceDef methods =>
      simp only [suffixes, List.mem_append, List.mem_cons, List.mem_ite_nil_right, List.not_mem_nil, or_false] at h
      rcases h with ((rfl | ⟨-, rfl⟩) | ⟨-, rfl⟩) | rfl <;> simp [allSuffixes]
    | _ => cases h
  | const => cases h
  | decorator => cases h
  | _ =>
    rw [List.mem_singleton.mp h]
    simp [allSuffixes]

theorem suffix_inj {name name' suffix suffix' : Text} (hsuffix : suffix ∈ allSuffixes) (hsuffix' : suffix' ∈ allSuffixes)
    (h : name ++ suffix = name' ++ suffix') : suffix = suffix' ∧ name = name' := by
  have hnil : ∀ suffix ∈ allSuffixes, suffix ≠ [] := by decide
  have hletters : ∀ suffix ∈ allSuffixes, ∀ suffix' ∈ allSuffixes, suffix.getLast? = suffix'.getLast? → suffix = suffix' := by
    decide
  have hlast := congrArg List.getLast? h
  rw [List.getLast?_append_of_ne_nil _ (hnil suffix hsuffix), List.getLast?_append_of_ne_nil _ (hnil suffix' hsuffix')] at hlast
  obtain rfl := hletters suffix hsuffix suffix' hsuffix' hlast
  exact ⟨rfl, List.append_cancel_right h⟩

/-- Two definitions that are exported under one name: they have the same name, or one
has that of the other with a suffix that the other is given. -/
def Clash (schema : SchemaDescriptor) (d e : DefinitionDescriptor) : Prop :=
  d.kind ≠ .decorator ∧ e.kind ≠ .decorator ∧
    (exportedName schema d = exportedName schema e ∨
      (∃ suffix ∈ suffixes e, exportedName schema d = exportedName schema e ++ suffix) ∨
        ∃ suffix ∈ suffixes d, exportedName schema e = exportedName schema d ++ suffix)

def Apart (first second : Declaration) : Prop := ∀ name ∈ first.exports, name ∉ second.exports

theorem apart_iff_not_clash :
    (∀ first ∈ declarations schema d, ∀ second ∈ declarations schema e, Apart first second) ↔ ¬Clash schema d e := by
  by_cases hd : d.kind = .decorator
  · rw [declarations_decorator hd]
    exact iff_of_true nofun fun h => h.1 hd
  by_cases he : e.kind = .decorator
  · rw [declarations_decorator he]
    exact iff_of_true (fun _ _ => nofun) fun h => h.2.1 he
  obtain ⟨first, hfirst, hin⟩ := declarations_eq schema hd
  obtain ⟨second, hsecond, hin'⟩ := declarations_eq schema he
  simp only [hfirst, hsecond, List.mem_singleton, forall_eq]
  constructor
  · rintro hapart ⟨-, -, heq | ⟨suffix, hsuffix, heq⟩ | ⟨suffix, hsuffix, heq⟩⟩
    · exact hapart _ ((hin _).mpr (.inl rfl)) ((hin' _).mpr (.inl heq))
    · exact hapart _ ((hin _).mpr (.inl rfl)) ((hin' _).mpr (.inr ⟨suffix, hsuffix, heq⟩))
    · exact hapart _ ((hin _).mpr (.inr ⟨suffix, hsuffix, heq⟩)) ((hin' _).mpr (.inl rfl))
  · intro hclash name hname hname'
    refine hclash ⟨hd, he, ?_⟩
    rcases (hin name).mp hname with hname | ⟨suffix, hsuffix, hname⟩
    · rcases (hin' name).mp hname' with hname' | ⟨suffix', hsuffix', hname'⟩
      · exact .inl (hname.symm.trans hname')
      · exact .inr (.inl ⟨suffix', hsuffix', hname.symm.trans hname'⟩)
    · rcases (hin' name).mp hname' with hname' | ⟨suffix', hsuffix', hname'⟩
      · exact .inr (.inr ⟨suffix, hsuffix, hname'.symm.trans hname⟩)
      · exact .inl (suffix_inj (mem_allSuffixes hsuffix) (mem_allSuffixes hsuffix') (hname.symm.trans hname')).2

instance : DecidableRel Apart := fun first second => by
  unfold Apart
  infer_instance

theorem pairwise_apart_iff (schema : SchemaDescriptor) (ds : List DefinitionDescriptor) :
    (ds.flatMap (declarations schema)).Pairwise Apart ↔ ds.Pairwise fun d e => ¬Clash schema d e := by
  rw [List.pairwise_flatMap]
  constructor
  · rintro ⟨-, hpairs⟩
    exact hpairs.imp fun h => apart_iff_not_clash.mp h
  · intro hpairs
    refine ⟨fun d _ => ?_, hpairs.imp fun h => apart_iff_not_clash.mpr h⟩
    by_cases hd : d.kind = .decorator
    · rw [declarations_decorator hd]
      exact List.Pairwise.nil
    · obtain ⟨declaration, heq, -⟩ := declarations_eq schema hd
      rw [heq]
      exact List.pairwise_singleton _ _

end Names

/-! ## Collisions -/

/-- Names are exported once, and files written once, unless it fails. -/
def NamesDistinct (request : CodeGeneratorRequest) : Prop :=
  ∀ files, generate request = .ok files →
    (∀ file ∈ files, file.declarations.Pairwise Apart) ∧ (files.map GeneratedFile.name).Nodup

/-- Two paths with one name but for their directories and their extensions. -/
def SameBaseName (first second : SchemaDescriptor) : Prop :=
  baseNameWithoutExtension (first.path.getD "").toList = baseNameWithoutExtension (second.path.getD "").toList

theorem outputFileName_inj {path path' : String} :
    outputFileName path = outputFileName path' ↔
      baseNameWithoutExtension path.toList = baseNameWithoutExtension path'.toList :=
  List.append_left_inj _

theorem distinct_files_iff (paths : List String) (schemas : List SchemaDescriptor) :
    ((∀ file ∈ (schemas.filter fun schema => IsRequested paths schema).map fileOf, file.declarations.Pairwise Apart) ∧
      (((schemas.filter fun schema => IsRequested paths schema).map fileOf).map GeneratedFile.name).Nodup) ↔
      (∀ schema ∈ schemas, IsRequested paths schema →
        (postorders schema.definitions).Pairwise fun d e => ¬Clash schema d e) ∧
      (schemas.filter fun schema => IsRequested paths schema).Pairwise fun first second =>
        ¬SameBaseName first second := by
  refine and_congr ?_ ?_
  · rw [List.forall_mem_map]
    constructor
    · intro h schema hschema hrequested
      have hpairs := h schema (List.mem_filter.mpr ⟨hschema, decide_eq_true hrequested⟩)
      exact (pairwise_apart_iff schema _).mp hpairs
    · intro h schema hschema
      obtain ⟨hmem, hrequested⟩ := List.mem_filter.mp hschema
      exact (pairwise_apart_iff schema _).mpr (h schema hmem (of_decide_eq_true hrequested))
  · rw [List.map_map, List.Nodup, List.pairwise_map]
    refine Iff.of_eq (congrArg (fun r => List.Pairwise r _) ?_)
    funext first second
    exact propext (not_congr outputFileName_inj)

/-- Two definitions clash, or two schemas have one base name. -/
theorem names_distinct_iff (request : CodeGeneratorRequest) :
    NamesDistinct request ↔
      ∀ paths schemas, request.filesToGenerate = some paths → request.schemas = some schemas →
        Accepts request paths schemas →
          (∀ schema ∈ schemas, IsRequested paths schema →
            (postorders schema.definitions).Pairwise fun d e => ¬Clash schema d e) ∧
          (schemas.filter fun schema => IsRequested paths schema).Pairwise fun first second =>
            ¬SameBaseName first second := by
  constructor
  · intro hdistinct paths schemas hpaths hschemas haccepts
    have hfiles := (guarded_generate hpaths hschemas _).mpr ⟨haccepts, rfl⟩
    exact (distinct_files_iff paths schemas).mp (hdistinct _ hfiles)
  · intro h files hfiles
    cases hpaths : request.filesToGenerate with
    | none =>
      rw [generate, hpaths] at hfiles
      cases hfiles
    | some paths =>
      cases hschemas : request.schemas with
      | none =>
        rw [generate, hpaths, hschemas] at hfiles
        cases hfiles
      | some schemas =>
        obtain ⟨haccepts, rfl⟩ := (guarded_generate hpaths hschemas files).mp hfiles
        exact (distinct_files_iff paths schemas).mpr (h paths schemas hpaths hschemas haccepts)

/-! ## Names without collisions -/

section Plain

variable {schema : SchemaDescriptor} {package : Text} {d e : DefinitionDescriptor} {names names' : List Text}

end Plain

/-! ## Schemas with collisions -/

namespace Sample

open Bebop.Compiler.Sample

def loadedFrom (path : String) (schema : Schema) : Schema :=
  { schema with log := .create (some path), log_holds := ⟨[], SchemaLog.holds_create _⟩ }

/-- `package p; struct A_B {} struct A { struct B {} }` -/
def joinedAlike : ParseResult where
  schemas := [loadedFrom "a.bop" (.ofDefinitions (some ['p']) []
    [scope ['A', '_', 'B'] [], scope ['A'] [scope ['B'] []]] (by decide))]

/-- `struct A {} struct AView {}` -/
def suffixedAlike : ParseResult where
  schemas := [loadedFrom "a.bop" (.ofDefinitions none [] [scope ['A'] [], scope "AView".toList []] (by decide))]

theorem parsed_scopeA :
    (placesFrom 0 [scope ['A'] []]).all fun path => (definitionAt [scope ['A'] []] path).all Def.isParsed := by
  decide

theorem parsed_scopeB :
    (placesFrom 0 [scope ['B'] []]).all fun path => (definitionAt [scope ['B'] []] path).all Def.isParsed := by
  decide

/-- `struct A {}` and `struct B {}`, in two directories. -/
def filedAlike : ParseResult where
  schemas :=
    [loadedFrom "a/x.bop" (.ofDefinitions none [] [scope ['A'] []] parsed_scopeA),
      loadedFrom "b/x.bop" (.ofDefinitions none [] [scope ['B'] []] parsed_scopeB)]

/-- What the compiler asks for when all schemas of a result are to be generated. -/
def requestAll (result : ParseResult) : CodeGeneratorRequest where
  filesToGenerate := some (result.schemas.filterMap fun schema => schema.log.path)
  schemas := some (descriptorBuild result.resolved).schemas
  hostOptions := ∅

end Sample

open Sample

theorem names_distinct_fails :
    (joinedAlike.Accepted (fun _ => []) ∧ ¬NamesDistinct (requestAll joinedAlike)) ∧
      (suffixedAlike.Accepted (fun _ => []) ∧ ¬NamesDistinct (requestAll suffixedAlike)) ∧
        filedAlike.Accepted (fun _ => []) ∧ ¬NamesDistinct (requestAll filedAlike) := by
  refine ⟨⟨by decide, fun h => ?_⟩, ⟨by decide, fun h => ?_⟩, by decide, fun h => ?_⟩
  · have hfiles : generate (requestAll joinedAlike) = .ok
        [⟨"a.bb.ts".toList,
          [⟨"p.A_B".toList, ["A_B".toList, "A_BView".toList]⟩, ⟨"p.A.B".toList, ["A_B".toList, "A_BView".toList]⟩,
            ⟨"p.A".toList, ["A".toList, "AView".toList]⟩]⟩] := by
      decide
    exact absurd ((h _ hfiles).1 _ List.mem_cons_self) (by decide)
  · have hfiles : generate (requestAll suffixedAlike) = .ok
        [⟨"a.bb.ts".toList,
          [⟨"A".toList, ["A".toList, "AView".toList]⟩, ⟨"AView".toList, ["AView".toList, "AViewView".toList]⟩]⟩] := by
      decide
    exact absurd ((h _ hfiles).1 _ List.mem_cons_self) (by decide)
  · have hfiles : generate (requestAll filedAlike) = .ok
        [⟨"x.bb.ts".toList, [⟨"A".toList, ["A".toList, "AView".toList]⟩]⟩,
          ⟨"x.bb.ts".toList, [⟨"B".toList, ["B".toList, "BView".toList]⟩]⟩] := by
      decide
    exact absurd (h _ hfiles).2 (by decide)

end Bebop.TypeScript
