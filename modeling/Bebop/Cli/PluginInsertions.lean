import Bebop.Cli.GeneratedFiles
import Bebop.Swift.PointsOnce

/-!
# Bebop — where the insertions of plugins land

A plugin that adds to generated Swift names an insertion point of a file, and `bebopc`
looks for the first comment of it. The comment is told by the sort and the own name of a
definition, so in a file with two definitions of one name and one sort, nested or not, an
insertion for the one goes to the other (`points_once_iff`).
-/

namespace Bebop.Cli

open Bebop.Compiler Bebop.Swift Bytes Occurrences

def emptyStruct (name fqn : Text) (nested : List DefinitionDescriptor) : DefinitionDescriptor :=
  ⟨.struct, .visDefault, name, fqn, [], nested, .structDef false []⟩

def bare : DeclarationCode where
  notice _ := .ok []
  record _ := .ok ⟨[], [], [], [], [], [], [], []⟩
  union _ := .ok ⟨[], [], [], [], [], [], [], [], []⟩
  enum _ := .ok ⟨[], []⟩
  service _ := .ok ⟨[], [], []⟩
  const _ := .ok []

theorem quiet_bare : bare.Quiet := by
  constructor
  · intro _ texts h t ht
    cases h
    cases ht
  all_goals
    intro _ c h t ht
    cases h
    cases ht

/-- `struct A { struct B {} } struct C {}` -/
def apartSchema : SchemaDescriptor :=
  ⟨some "a.bop", none, [], [emptyStruct ['A'] ['A'] [emptyStruct ['B'] ['A', '.', 'B'] []], emptyStruct ['C'] ['C'] []]⟩

/-- `struct A { struct B {} } struct B {}` -/
def nestedSchema : SchemaDescriptor :=
  ⟨some "a.bop", none, [], [emptyStruct ['A'] ['A'] [emptyStruct ['B'] ['A', '.', 'B'] []], emptyStruct ['B'] ['B'] []]⟩

theorem exists_file (schema : SchemaDescriptor) (h : (Swift.generate ⟨.both⟩ bare schema).isOk) :
    ∃ file, Swift.generate ⟨.both⟩ bare schema = .ok file := by
  cases hfile : Swift.generate ⟨.both⟩ bare schema with
  | error e =>
    rw [hfile] at h
    cases h
  | ok file => exact ⟨file, rfl⟩

/-- A response with a file that is a marker, and an insertion for it. -/
def markedResponse : List ResponseFile :=
  [⟨some ⟨[102], by decide⟩, some ⟨marker ⟨[98], by decide⟩, by decide⟩, none⟩,
    ⟨some ⟨[102], by decide⟩, some ⟨[99], by decide⟩, some ⟨[98], by decide⟩⟩]

theorem undisturbed_marked (path original : List UInt8)
    (h : (markedResponse.foldl (writeFile []) ⟨fun _ => none, [], .ok⟩).files path = some original) :
    Undisturbed original (addressed [] path (insertions markedResponse)) := by
  have hfiles : (markedResponse.foldl (writeFile []) ⟨fun _ => none, [], .ok⟩).files path =
      if path = [47, 102] then some (marker ⟨[98], by decide⟩) else none := rfl
  rw [hfiles] at h
  split at h
  · rename_i hpath
    obtain rfl := Option.some.inj h
    obtain ⟨i, hi, hpoint⟩ :
    ∃ i, addressed [] path (insertions markedResponse) = [i] ∧ i = ⟨⟨[102], by decide⟩, ⟨[99], by decide⟩, ⟨[98], by decide⟩⟩ := by
      rw [hpath]
      exact ⟨_, rfl, rfl⟩
    rw [hi]
    subst hpoint
    refine ⟨by decide, ?_, ?_, ?_, fun done hdone => ?_⟩
    · exact List.forall_mem_singleton.mpr fun _ => (by decide)
    · exact List.forall_mem_singleton.mpr (by decide)
    · exact List.forall_mem_singleton.mpr (by decide)
    · rw [List.forall_mem_singleton]
      rcases List.prefix_concat_iff.mp (show done <+: [] ++ [_] from hdone) with rfl | hnil
      · decide
      · rw [List.prefix_nil.mp hnil]
        decide
  · cases h

end Bebop.Cli
