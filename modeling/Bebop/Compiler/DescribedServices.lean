import Bebop.Compiler.Descriptor
import Bebop.Compiler.Services
import Mathlib.Data.List.Nodup

/-!
# Bebop — composed services in a descriptor

A service descriptor has a list of methods and no mixins, so that what a service
has from others can only be in that list. The builder writes the methods of the
service itself.
-/

namespace Bebop.Compiler

def DefinitionDescriptor.methods (descriptor : DefinitionDescriptor) : List MethodDescriptor :=
  match descriptor.body with
  | .serviceDef methods => methods
  | _ => []

namespace ParseResult

variable (result : ParseResult)

/-- A list has all methods that a service offers, each of them once. -/
def ListsOffered (ref : DefRef) (methods : List MethodDescriptor) : Prop :=
  ∃ places : List (DefRef × Nat), places.Nodup ∧
    (∀ place, place ∈ places ↔ ∃ method, result.Offers ref place.1 place.2 method) ∧
    List.Forall₂ (fun place descriptor => ∃ method, result.MethodAt place.1 place.2 method ∧
      descriptor = buildMethod result.fqn method) places methods

/-- The descriptor of each service has the methods that the service offers. -/
def DescribesServices (set : DescriptorSet) : Prop :=
  ∀ ref d, result.def? ref = some d → d.kind = .service →
    ∃ descriptor, set.at? ref = some descriptor ∧ result.ListsOffered ref descriptor.methods

def NothingInherited : Prop :=
  ∀ ref service i method, result.Offers ref service i method → service = ref

variable {result}

theorem methods_buildDef {ref : DefRef} {d : Def} {methods : List Method} {mixins : List Ty}
    (hd : result.def? ref = some d) (hbody : d.body = .service methods mixins) :
    ∃ descriptor, (descriptorBuild result).at? ref = some descriptor ∧
      descriptor.methods = methods.map (buildMethod result.fqn) := by
  obtain ⟨outer, -, hat⟩ := at?_descriptorBuild hd
  refine ⟨_, hat, ?_⟩
  rw [buildDef_eq, DefinitionDescriptor.methods, hbody]
  rfl

theorem listsOffered_iff {ref : DefRef} {methods : List Method} {mixins : List Ty}
    (hservice : result.service? ref = some (methods, mixins)) :
    result.ListsOffered ref (methods.map (buildMethod result.fqn)) ↔
      ∀ service i method, result.Offers ref service i method → service = ref := by
  have hown {i : Nat} (hi : i < methods.length) : result.MethodAt ref i methods[i] :=
    ⟨methods, mixins, hservice, List.getElem?_eq_getElem hi⟩
  let own : List (DefRef × Nat) := (List.range methods.length).map (Prod.mk ref)
  have hlength : own.length = methods.length := by rw [List.length_map, List.length_range]
  constructor
  · rintro ⟨places, hnodup, hmem, hlist⟩ service i method hoffers
    have hsub : own ⊆ places := by
      intro place hplace
      obtain ⟨k, hk, rfl⟩ := List.mem_map.mp hplace
      exact (hmem _).mpr ⟨_, .refl, hown (List.mem_range.mp hk)⟩
    have hownNodup : own.Nodup := List.nodup_range.map fun _ _ h => (Prod.mk.inj h).2
    have hle : places.length ≤ own.length := by
      rw [hlength, hlist.length_eq, List.length_map]
    have hperm := (List.subperm_of_subset hownNodup hsub).perm_of_length_le hle
    have hplace : (service, i) ∈ own := hperm.mem_iff.mpr ((hmem _).mpr ⟨method, hoffers⟩)
    obtain ⟨k, -, heq⟩ := List.mem_map.mp hplace
    exact (congrArg Prod.fst heq).symm
  · intro h
    refine ⟨own, List.nodup_range.map fun _ _ h => (Prod.mk.inj h).2, fun place => ?_, ?_⟩
    · obtain ⟨service, i⟩ := place
      constructor
      · intro hplace
        obtain ⟨k, hk, heq⟩ := List.mem_map.mp hplace
        cases heq
        exact ⟨_, .refl, hown (List.mem_range.mp hk)⟩
      · rintro ⟨method, hoffers⟩
        obtain rfl := h service i method hoffers
        obtain ⟨methods', mixins', hservice', hi⟩ := hoffers.2
        rw [hservice] at hservice'
        cases hservice'
        exact List.mem_map.mpr ⟨i, List.mem_range.mpr (List.getElem?_eq_some_iff.mp hi).1, rfl⟩
    · rw [List.forall₂_iff_get]
      refine ⟨by rw [hlength, List.length_map], fun i hi hi' => ?_⟩
      have hlt : i < methods.length := by rwa [List.length_map] at hi'
      refine ⟨methods[i], ?_, ?_⟩
      · rw [List.get_eq_getElem, List.getElem_map, List.getElem_range]
        exact hown hlt
      · rw [List.get_eq_getElem, List.getElem_map]

/-- A descriptor has all methods exactly if no service has methods from another. -/
theorem describes_services_iff (result : ParseResult) :
    result.DescribesServices (descriptorBuild result) ↔ result.NothingInherited := by
  have hservice {ref : DefRef} {d : Def} (hd : result.def? ref = some d) (hkind : d.kind = .service) :
      ∃ methods mixins, d.body = .service methods mixins ∧ result.service? ref = some (methods, mixins) := by
    unfold Def.kind Body.kind at hkind
    split at hkind
    all_goals first
      | (rename_i methods mixins hbody
         refine ⟨methods, mixins, hbody, ?_⟩
         unfold service?
         rw [hd, Option.bind_some, hbody])
      | cases hkind
  constructor
  · intro h ref service i method hoffers
    cases hd : result.service? ref with
    | none =>
      -- what is no service reaches no other
      rcases Relation.ReflTransGen.cases_head hoffers.1 with rfl | ⟨next, hmixes, -⟩
      · rfl
      · unfold Mixes mixinServices at hmixes
        rw [hd] at hmixes
        cases hmixes
    | some x =>
      obtain ⟨methods, mixins⟩ := x
      obtain ⟨d, hdef, hbody⟩ := Option.bind_eq_some_iff.mp hd
      have hbody' : d.body = .service methods mixins := by
        split at hbody
        · rename_i methods' mixins' heq
          cases hbody
          exact heq
        · cases hbody
      obtain ⟨descriptor, hat, hlists⟩ := h ref d hdef (by rw [Def.kind, hbody']; rfl)
      obtain ⟨descriptor', hat', hmethods⟩ := methods_buildDef hdef hbody'
      rw [hat, Option.some.injEq] at hat'
      subst hat'
      rw [hmethods] at hlists
      exact (listsOffered_iff hd).mp hlists service i method hoffers
  · intro h ref d hd hkind
    obtain ⟨methods, mixins, hbody, hservice⟩ := hservice hd hkind
    obtain ⟨descriptor, hat, hmethods⟩ := methods_buildDef hd hbody
    refine ⟨descriptor, hat, ?_⟩
    rw [hmethods]
    exact (listsOffered_iff hservice).mpr (h ref)

end ParseResult

open Sample

namespace ParseResult

/-- `B` in `service A { M(R): R; } service B with A {}` has no methods. -/
theorem describes_services_fails :
    oneMixin.Accepted (fun _ => []) ∧
      ¬oneMixin.resolved.DescribesServices (descriptorBuild oneMixin.resolved) := by
  refine ⟨by decide, fun h => ?_⟩
  obtain ⟨descriptor, hat, places, -, hmem, hlist⟩ := h ⟨0, [2]⟩ _ rfl (by decide)
  have hnone : (((descriptorBuild oneMixin.resolved).at? ⟨0, [2]⟩).map DefinitionDescriptor.methods) = some [] := by
    decide
  rw [hat, Option.map_some, Option.some.injEq] at hnone
  rw [hnone, List.forall₂_nil_right_iff] at hlist
  subst hlist
  have hoffers : oneMixin.resolved.Offers ⟨0, [2]⟩ ⟨0, [1]⟩ 0 _ :=
    ⟨.single (by unfold Mixes; decide), _, _, rfl, rfl⟩
  exact absurd ((hmem (⟨0, [1]⟩, 0)).mpr ⟨_, hoffers⟩) List.not_mem_nil

end ParseResult

end Bebop.Compiler
