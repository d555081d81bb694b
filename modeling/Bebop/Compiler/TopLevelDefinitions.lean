import Bebop.Compiler.SortedDefinitions

/-!
# Bebop — the definitions of a schema by their numbers

`bebop_schema_definition_count` is the number of the top-level definitions, and
`bebop_schema_definition_at` reads the array of all definitions: the order in which they
were registered, and behind the validation the one in which they were sorted.
-/

namespace Bebop.Compiler

/-- `bebop_schema_definition_count` -/
def Schema.definitionCount (schema : Schema) : Nat := schema.definitions.length

/-- `bebop_schema_definition_at`, with the count of a schema and its array. -/
def schemaDefinitionAt (definitionCount : Nat) (sortedDefs : List (List Nat)) (idx : Nat) : Option (List Nat) :=
  if idx ≥ definitionCount then none else sortedDefs[idx]?

/-- The part of a schema in the sorted definitions, if they could be sorted. -/
def ParseResult.validatedDefs (result : ParseResult) (s : Nat) (schema : Schema) : List (List Nat) :=
  match result.resolved.toposort with
  | .sorted order => (order.filter fun ref => ref.schema = s).map DefRef.path
  | _ => schema.sortedDefs

def topLevel (n : Nat) : List (List Nat) := (List.range n).map fun i => [i]

/-- The numbers below the count are those of the top-level definitions. -/
def EnumeratesTopLevel (n : Nat) (sortedDefs : List (List Nat)) : Prop :=
  ((List.range n).map (schemaDefinitionAt n sortedDefs)).Perm ((topLevel n).map some)

/-! ## The array -/

structure HasEach (definitions : List Def) (sortedDefs : List (List Nat)) : Prop where
  nodup : sortedDefs.Nodup
  mem : ∀ path, path ∈ sortedDefs ↔ (definitionAt definitions path).isSome

variable {definitions : List Def} {sortedDefs : List (List Nat)} {n : Nat}

theorem nodup_topLevel (n : Nat) : (topLevel n).Nodup := List.nodup_range.map fun _ _ h => (List.cons.inj h).1

theorem mem_topLevel {path : List Nat} : path ∈ topLevel n ↔ ∃ i < n, path = [i] := by
  unfold topLevel
  rw [List.mem_map]
  refine exists_congr fun i => ?_
  rw [List.mem_range, eq_comm]

theorem HasEach.topLevel_subset (h : HasEach definitions sortedDefs) : topLevel definitions.length ⊆ sortedDefs := by
  intro path hpath
  obtain ⟨i, hi, rfl⟩ := mem_topLevel.mp hpath
  rw [h.mem, definitionAt, List.getElem?_eq_getElem hi]
  rfl

theorem HasEach.length_le (h : HasEach definitions sortedDefs) : definitions.length ≤ sortedDefs.length := by
  have hlength : (topLevel definitions.length).length = definitions.length := by
    unfold topLevel
    rw [List.length_map, List.length_range]
  rw [← hlength]
  exact ((nodup_topLevel _).subperm h.topLevel_subset).length_le

theorem enumeratesTopLevel_iff (h : n ≤ sortedDefs.length) :
    EnumeratesTopLevel n sortedDefs ↔ (sortedDefs.take n).Perm (topLevel n) := by
  have hread : (List.range n).map (schemaDefinitionAt n sortedDefs) = (sortedDefs.take n).map some := by
    refine List.ext_getElem (by simp [h]) fun i hi _ => ?_
    rw [List.length_map, List.length_range] at hi
    rw [List.getElem_map, List.getElem_map, List.getElem_range, List.getElem_take, schemaDefinitionAt,
      if_neg (Nat.not_le.mpr hi)]
    exact List.getElem?_eq_getElem (Nat.lt_of_lt_of_le hi h)
  unfold EnumeratesTopLevel
  rw [hread]
  exact List.map_perm_map_iff (Option.some_injective _)

theorem HasEach.enumerates (h : HasEach definitions sortedDefs) (hflat : ∀ d ∈ definitions, d.nestedDefs = []) :
    EnumeratesTopLevel definitions.length sortedDefs := by
  have hperm : sortedDefs.Perm (topLevel definitions.length) := by
    rw [List.perm_ext_iff_of_nodup h.nodup (nodup_topLevel _)]
    intro path
    rw [h.mem, mem_topLevel]
    cases path with
    | nil =>
      refine iff_of_false (fun hnone => by cases hnone) ?_
      rintro ⟨i, -, hpath⟩
      cases hpath
    | cons i path =>
      rw [definitionAt_cons_isSome]
      constructor
      · rintro ⟨d, hd, rfl | hnested⟩
        · exact ⟨i, (List.getElem?_eq_some_iff.mp hd).1, rfl⟩
        · rw [hflat d (List.mem_of_getElem? hd)] at hnested
          cases path with
          | nil => cases hnested
          | cons j path =>
            obtain ⟨_, hnone, -⟩ := definitionAt_cons_isSome.mp hnested
            cases hnone
      · rintro ⟨i, hi, hpath⟩
        cases hpath
        exact ⟨_, List.getElem?_eq_getElem hi, .inl rfl⟩
  have hlength : sortedDefs.length = definitions.length := by
    rw [hperm.length_eq]
    unfold topLevel
    rw [List.length_map, List.length_range]
  rw [enumeratesTopLevel_iff (Nat.le_of_eq hlength.symm), List.take_of_length_le (Nat.le_of_eq hlength)]
  exact hperm

/-! ## Before the validation -/

theorem placesFrom_concat (i : Nat) (defs : List Def) (d : Def) :
    ∃ before, placesFrom i (defs ++ [d]) = before ++ [[i + defs.length]] := by
  induction defs generalizing i with
  | nil =>
    rw [List.nil_append, placesFrom, placesFrom, List.append_nil, Def.places_eq]
    exact ⟨_, rfl⟩
  | cons e defs ih =>
    obtain ⟨before, hbefore⟩ := ih (i + 1)
    rw [List.cons_append, placesFrom, hbefore, List.length_cons, ← List.append_assoc, Nat.add_right_comm, Nat.add_assoc]
    exact ⟨_, rfl⟩

theorem HasEach.flat (h : HasEach definitions sortedDefs) (hparsed : sortedDefs = placesFrom 0 definitions)
    (hexact : EnumeratesTopLevel definitions.length sortedDefs) : ∀ d ∈ definitions, d.nestedDefs = [] := by
  rw [enumeratesTopLevel_iff h.length_le] at hexact
  -- the last top-level definition is read, so that all definitions are
  have hall : sortedDefs.take definitions.length = sortedDefs := by
    rcases List.eq_nil_or_concat' definitions with rfl | ⟨others, last, rfl⟩
    · rw [hparsed, placesFrom, List.take_nil]
    · obtain ⟨before, hbefore⟩ := placesFrom_concat 0 others last
      rw [← hparsed, Nat.zero_add] at hbefore
      have hlast : [others.length] ∈ sortedDefs.take (others ++ [last]).length := by
        rw [hexact.mem_iff, mem_topLevel, List.length_append]
        exact ⟨_, Nat.lt_succ_self _, rfl⟩
      have hnodup := h.nodup
      generalize (others ++ [last]).length = n at hlast
      rw [hbefore] at hlast hnodup ⊢
      rw [List.take_append, List.mem_append] at hlast
      rcases hlast with hmem | hmem
      · exact absurd rfl ((List.nodup_append.mp hnodup).2.2 _ (List.mem_of_mem_take hmem) _ (List.mem_singleton_self _))
      · refine List.take_of_length_le ?_
        rw [List.length_append, List.length_singleton]
        have hpos : n - before.length ≠ 0 := by
          intro hzero
          rw [hzero, List.take_zero] at hmem
          cases hmem
        omega
  rw [hall] at hexact
  intro d hd
  obtain ⟨i, hi⟩ := List.getElem?_of_mem hd
  refine List.eq_nil_iff_forall_not_mem.mpr fun nested hnested => ?_
  obtain ⟨k, hk⟩ := List.getElem?_of_mem hnested
  have hplace : [i, k] ∈ sortedDefs := by
    rw [h.mem, definitionAt_cons_isSome]
    exact ⟨d, hi, .inr (by rw [definitionAt, hk]; rfl)⟩
  obtain ⟨j, -, hj⟩ := mem_topLevel.mp (hexact.mem_iff.mp hplace)
  cases hj

/-! ## Behind the validation -/

variable {result : ParseResult} {s : Nat} {schema : Schema}

theorem Schema.hasEach (schema : Schema) : HasEach schema.definitions schema.sortedDefs :=
  ⟨schema.registered_nodup, schema.registered⟩

theorem HasEach.ofOrder {order : List DefRef} (hschema : result.schemas[s]? = some schema)
    (horder : order.Perm result.registered) :
    HasEach schema.definitions ((order.filter fun ref => ref.schema = s).map DefRef.path) := by
  constructor
  · refine List.Nodup.map_on ?_ ((horder.nodup_iff.mpr result.nodup_registered).filter _)
    rintro ⟨t, path⟩ hmem ⟨t', path'⟩ hmem' hpath
    have ht := of_decide_eq_true (List.mem_filter.mp hmem).2
    have ht' := of_decide_eq_true (List.mem_filter.mp hmem').2
    dsimp only at hpath ht ht'
    rw [hpath, ht, ht']
  · intro path
    rw [List.mem_map, ← ParseResult.def?_eq hschema, Option.isSome_iff_exists, ← ParseResult.mem_registered,
      ← horder.mem_iff]
    constructor
    · rintro ⟨⟨t, path⟩, hmem, rfl⟩
      obtain ⟨hmem, hs⟩ := List.mem_filter.mp hmem
      rw [decide_eq_true_iff] at hs
      dsimp only at hs
      rwa [hs] at hmem
    · intro hmem
      exact ⟨_, List.mem_filter.mpr ⟨hmem, decide_eq_true rfl⟩, rfl⟩

theorem HasEach.validated (hschema : result.schemas[s]? = some schema) :
    HasEach schema.definitions (result.validatedDefs s schema) := by
  unfold ParseResult.validatedDefs
  split
  · rename_i order horder
    refine .ofOrder hschema ?_
    rw [← ParseResult.registered_relink]
    exact ParseResult.perm_of_toposort horder
  · exact schema.hasEach

/-- Both before and behind the validation the top-level definitions of a schema are
found by their numbers if and only if none is nested in another. -/
theorem topLevel_exact_iff (hschema : result.schemas[s]? = some schema)
    (hparsed : schema.sortedDefs = placesFrom 0 schema.definitions) :
    (EnumeratesTopLevel schema.definitionCount schema.sortedDefs ∧
        EnumeratesTopLevel schema.definitionCount (result.validatedDefs s schema)) ↔
      ∀ d ∈ schema.definitions, d.nestedDefs = [] := by
  constructor
  · rintro ⟨hbefore, -⟩
    exact schema.hasEach.flat hparsed hbefore
  · intro hflat
    exact ⟨schema.hasEach.enumerates hflat, (HasEach.validated hschema).enumerates hflat⟩

/-! ## A nested definition -/

namespace Sample

/-- `struct P {} struct S { f: P; }` -/
def pointAndShape : Schema := .ofDefinitions none [] [scope ['P'] [], record ['S'] [['P']] []] (by decide)

/-- `struct Out { struct In {} } struct Oth {}` -/
def outerInner : Schema :=
  .ofDefinitions none [] [scope ['O', 'u', 't'] [scope ['I', 'n'] []], scope ['O', 't', 'h'] []] (by decide)

end Sample

open Sample

theorem topLevel_exact_pointAndShape :
    EnumeratesTopLevel pointAndShape.definitionCount (ParseResult.validatedDefs ⟨[pointAndShape]⟩ 0 pointAndShape) :=
  ((@topLevel_exact_iff ⟨[pointAndShape]⟩ 0 _ rfl rfl).mpr (by decide)).2

/-- The first is the nested definition, and the second top-level one is not found. -/
theorem nested_is_found :
    ParseResult.Accepted ⟨[outerInner]⟩ (fun _ => []) ∧ outerInner.definitionCount = 2 ∧
      (List.range 2).map (schemaDefinitionAt 2 outerInner.sortedDefs) = [some [0, 0], some [0]] ∧
      (List.range 2).map (schemaDefinitionAt 2 (ParseResult.validatedDefs ⟨[outerInner]⟩ 0 outerInner)) =
        [some [0, 0], some [0]] ∧
      ¬EnumeratesTopLevel 2 outerInner.sortedDefs ∧
        ¬EnumeratesTopLevel 2 (ParseResult.validatedDefs ⟨[outerInner]⟩ 0 outerInner) := by
  refine ⟨by decide, rfl, by decide, by decide, ?_, ?_⟩
  · unfold EnumeratesTopLevel
    decide
  · unfold EnumeratesTopLevel
    decide

end Bebop.Compiler
