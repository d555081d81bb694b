import Bebop.Compiler.Descriptor
import Bebop.Compiler.Register

/-!
# Bebop — the order of a descriptor

The validator sorts the definitions of all schemas, but what it sorts is not what
the builder walks over: schemas stand in a descriptor as they were loaded, and
definitions as they stand in their file.
-/

namespace Bebop.Compiler

namespace ParseResult

variable (result : ParseResult)

def Imports (s t : Nat) : Prop :=
  ∃ schema, result.schemas[s]? = some schema ∧ ∃ imp ∈ schema.imports, imp.schema = some t

/-- A definition, or one nested in it, refers to another or has it as a decorator. -/
def Mentions (s i : Nat) (target : DefRef) : Prop :=
  ∃ path d, result.def? ⟨s, i :: path⟩ = some d ∧
    ((∃ r ∈ d.references, r.resolved = some target) ∨ ∃ x ∈ d.decoratorChains.flatten, x.resolved = some target)

/-- Two messages or unions, of which the second leads back to the first. -/
def Recursive (s i j : Nat) : Prop :=
  (∀ k, k = i ∨ k = j → ∃ d, result.def? ⟨s, [k]⟩ = some d ∧ (d.kind = .message ∨ d.kind = .union)) ∧
    Relation.TransGen (fun a b => result.Mentions s a ⟨s, [b]⟩) j i

/-- A schema comes after its imports, a definition after those that it mentions. -/
structure DescribedInOrder (set : DescriptorSet) : Prop where
  schemas : (∀ s, ¬Relation.TransGen result.Imports s s) → ∀ s t source target, set.schemas[s]? = some source →
    set.schemas[t]? = some target → result.Imports s t → t < s
  definitions : ∀ s schema, set.schemas[s]? = some schema → ∀ i j d e, schema.definitions[i]? = some d →
    schema.definitions[j]? = some e → i ≠ j → result.Mentions s i ⟨s, [j]⟩ → ¬result.Recursive s i j → j < i

/-- Schemas were loaded, and definitions declared, after those they need. -/
structure LoadedInOrder : Prop where
  schemas : (∀ s, ¬Relation.TransGen result.Imports s s) → ∀ s t, s < result.schemas.length →
    t < result.schemas.length → result.Imports s t → t < s
  definitions : ∀ s schema, result.schemas[s]? = some schema → ∀ i j, i < schema.definitions.length →
    j < schema.definitions.length → i ≠ j → result.Mentions s i ⟨s, [j]⟩ → ¬result.Recursive s i j → j < i

variable {result}

theorem definitions_descriptorBuild {s : Nat} {schema : Schema} (hschema : result.schemas[s]? = some schema) :
    ∃ built, (descriptorBuild result).schemas[s]? = some built ∧ built.path = schema.log.path ∧
      ∀ i, built.definitions[i]? = schema.definitions[i]?.map (buildDef result.fqn schema.package) ∧
        (built.definitions[i]?.map DefinitionDescriptor.fqn) = result.fqn ⟨s, [i]⟩ := by
  refine ⟨buildSchema result.fqn schema, ?_, rfl, fun i => ?_⟩
  · rw [getElem?_schemas_descriptorBuild, hschema, Option.map_some]
  · have hbuilt : (buildSchema result.fqn schema).definitions[i]? =
        schema.definitions[i]?.map (buildDef result.fqn schema.package) :=
      getElem?_buildDefs schema.package schema.definitions i
    refine ⟨hbuilt, ?_⟩
    rw [hbuilt, fqn_eq hschema, fqnAt]
    cases schema.definitions[i]? with
    | none => rfl
    | some d => rw [Option.map_some, Option.map_some, Option.map_some, buildDef_eq]

/-- A descriptor is in order exactly if the files already are. -/
theorem described_in_order_iff (result : ParseResult) :
    result.DescribedInOrder (descriptorBuild result) ↔ result.LoadedInOrder := by
  constructor
  · intro h
    constructor
    · intro hacyclic s t hs ht himports
      obtain ⟨source, hsource, -⟩ := definitions_descriptorBuild (List.getElem?_eq_getElem hs)
      obtain ⟨target, htarget, -⟩ := definitions_descriptorBuild (List.getElem?_eq_getElem ht)
      exact h.schemas hacyclic s t source target hsource htarget himports
    · intro s schema hschema i j hi hj
      obtain ⟨built, hbuilt, -, hplaces⟩ := definitions_descriptorBuild hschema
      have hdescriptor {k : Nat} (hk : k < schema.definitions.length) : ∃ d, built.definitions[k]? = some d := by
        rw [(hplaces k).1, List.getElem?_eq_getElem hk]
        exact ⟨_, Option.map_some _ _⟩
      obtain ⟨d, hd⟩ := hdescriptor hi
      obtain ⟨e, he⟩ := hdescriptor hj
      exact h.definitions s built hbuilt i j d e hd he
  · intro h
    constructor
    · intro hacyclic s t source target hs ht himports
      have hlength {k : Nat} {built : SchemaDescriptor} (hk : (descriptorBuild result).schemas[k]? = some built) :
          k < result.schemas.length := by
        rw [getElem?_schemas_descriptorBuild] at hk
        obtain ⟨schema, hschema, -⟩ := Option.map_eq_some_iff.mp hk
        exact (List.getElem?_eq_some_iff.mp hschema).1
      exact h.schemas hacyclic s t (hlength hs) (hlength ht) himports
    · intro s built hbuilt i j d e hi hj
      have hbuilt' := hbuilt
      rw [getElem?_schemas_descriptorBuild] at hbuilt'
      obtain ⟨schema, hschema, heq⟩ := Option.map_eq_some_iff.mp hbuilt'
      have hlength {k : Nat} {x : DefinitionDescriptor} (hk : built.definitions[k]? = some x) :
          k < schema.definitions.length := by
        obtain ⟨built', hbuilt', -, hplaces⟩ := definitions_descriptorBuild hschema
        rw [hbuilt, Option.some.injEq] at hbuilt'
        rw [hbuilt', (hplaces k).1] at hk
        obtain ⟨source, hsource, -⟩ := Option.map_eq_some_iff.mp hk
        exact (List.getElem?_eq_some_iff.mp hsource).1
      exact h.definitions s schema hschema i j (hlength hi) (hlength hj)

end ParseResult

/-! ## Files that are accepted in another order -/

namespace Sample

/-- `struct A { f: B; } struct B {}` -/
def useBeforeDeclaration : ParseResult where
  schemas := [.ofDefinitions none [] [record ['A'] [['B']] [], scope ['B'] []] (by decide)]

/-- `struct A { f: B; }`, and after it the file that it imports, `struct B {}`. -/
def importLoadedAfter : ParseResult where
  schemas :=
    [.ofDefinitions none [⟨['b'], nowhere, some 1⟩] [record ['A'] [['B']] []] (by decide),
      .ofDefinitions none [] [scope ['B'] []] (by decide)]

end Sample

open Sample

namespace ParseResult

theorem described_in_order_fails :
    (useBeforeDeclaration.Accepted (fun _ => []) ∧
      ¬useBeforeDeclaration.resolved.DescribedInOrder (descriptorBuild useBeforeDeclaration.resolved)) ∧
      importLoadedAfter.Accepted (fun _ => []) ∧
        ¬importLoadedAfter.resolved.DescribedInOrder (descriptorBuild importLoadedAfter.resolved) := by
  refine ⟨⟨by decide, fun h => ?_⟩, by decide, fun h => ?_⟩
  · have hmentions : useBeforeDeclaration.resolved.Mentions 0 0 ⟨0, [1]⟩ :=
      ⟨[], _, rfl, .inl ⟨⟨.field, ['B'], some ⟨0, [1]⟩⟩, by decide, rfl⟩⟩
    have hstructs : ¬useBeforeDeclaration.resolved.Recursive 0 0 1 := by
      rintro ⟨hkinds, -⟩
      obtain ⟨d, hd, hkind⟩ := hkinds 0 (.inl rfl)
      cases hd
      exact absurd hkind (by decide)
    exact absurd (h.definitions 0 _ rfl 0 1 _ _ rfl rfl (by decide) hmentions hstructs) (by decide)
  · have honly {s t : Nat} (himports : importLoadedAfter.resolved.Imports s t) : s = 0 ∧ t = 1 := by
      obtain ⟨schema, hschema, imp, himp, heq⟩ := himports
      match s, hschema with
      | 0, hschema =>
        cases hschema
        rw [List.mem_singleton.mp himp] at heq
        exact ⟨rfl, (Option.some.inj heq).symm⟩
      | 1, hschema =>
        cases hschema
        cases himp
    have hacyclic (s : Nat) : ¬Relation.TransGen importLoadedAfter.resolved.Imports s s := by
      intro hcycle
      obtain ⟨next, hfirst, -⟩ := Relation.TransGen.head'_iff.mp hcycle
      obtain ⟨last, -, hlast⟩ := Relation.TransGen.tail'_iff.mp hcycle
      have hzero := (honly hfirst).1
      have hone := (honly hlast).2
      omega
    have himports : importLoadedAfter.resolved.Imports 0 1 := ⟨_, rfl, _, List.mem_cons_self, rfl⟩
    exact absurd (h.schemas hacyclic 0 1 _ _ rfl rfl himports) (by decide)

end ParseResult

end Bebop.Compiler
