import Bebop.Compiler.References
import Bebop.Compiler.Register
import Bebop.Compiler.SameDefinitions

/-!
# Bebop — the order of the import statements

The lookup of a name goes through the imports in their order and takes the first definition
it finds. A name without dots that is found twice is ambiguous, whatever the order. Of a
dotted name only the first definition of its first part is followed.
-/

namespace Bebop.Compiler

namespace ParseResult

variable (result : ParseResult)

/-- The result with the import statements of one schema replaced. -/
def withImports (s : Nat) (imports : List Import) : ParseResult where
  schemas := result.schemas.modify s fun schema => { schema with imports := imports }

/-- The statements are those of the schema, in some order. -/
def IsReordering (s : Nat) (imports : List Import) : Prop :=
  ∀ schema, result.schemas[s]? = some schema → imports.Perm schema.imports

variable {result} {s : Nat} {imports : List Import}

theorem getElem?_withImports (t : Nat) :
    (result.withImports s imports).schemas[t]? =
      result.schemas[t]?.map fun schema => if s = t then { schema with imports := imports } else schema := by
  unfold withImports
  rw [List.getElem?_modify]
  cases result.schemas[t]? with
  | none => split <;> rfl
  | some schema => split <;> rfl

theorem map_withImports {α : Type} (t : Nat) (f : Schema → α)
    (hf : ∀ schema : Schema, f { schema with imports := imports } = f schema) :
    (result.withImports s imports).schemas[t]?.map f = result.schemas[t]?.map f := by
  rw [getElem?_withImports, Option.map_map]
  refine congrArg (Option.map · result.schemas[t]?) (funext fun schema => ?_)
  rw [Function.comp_apply]
  split
  · exact hf schema
  · rfl

theorem bind_withImports {α : Type} (t : Nat) (f : Schema → Option α)
    (hf : ∀ schema : Schema, f { schema with imports := imports } = f schema) :
    (result.withImports s imports).schemas[t]?.bind f = result.schemas[t]?.bind f := by
  rw [getElem?_withImports, Option.bind_map]
  refine congrArg (Option.bind result.schemas[t]?) (funext fun schema => ?_)
  rw [Function.comp_apply]
  split
  · exact hf schema
  · rfl

theorem mapIdx_withImports {α : Type} (f : Nat → Schema → α)
    (hf : ∀ t (schema : Schema), f t { schema with imports := imports } = f t schema) :
    (result.withImports s imports).schemas.mapIdx f = result.schemas.mapIdx f := by
  refine List.ext_getElem? fun t => ?_
  rw [List.getElem?_mapIdx, List.getElem?_mapIdx]
  exact map_withImports t (f t) (hf t)

theorem sameDefinitions_withImports : result.SameDefinitions (result.withImports s imports) where
  registered := congrArg List.flatten (mapIdx_withImports _ fun _ _ => rfl)
  def? := funext fun ref => bind_withImports ref.schema _ fun _ => rfl
  fqn := funext fun ref => bind_withImports ref.schema _ fun _ => rfl

theorem hasVisibility_withImports (himports : result.IsReordering s imports) (source target : Nat) :
    (result.withImports s imports).hasVisibility source target = result.hasVisibility source target := by
  unfold hasVisibility
  rw [getElem?_withImports]
  cases hschema : result.schemas[source]? with
  | none => rfl
  | some schema =>
    rw [Option.map_some]
    dsimp only
    split
    · rename_i hsource
      subst hsource
      unfold Schema.hasVisibility
      rw [(himports schema hschema).any_eq]
    · rfl

/-! ## The route through the imports -/

variable (result) in
/-- The definitions of a name among which the order of the imports decides. -/
def candidates (s : Nat) (context : Option (List Nat)) (name : Text) : List DefRef :=
  match result.schemas[s]? with
  | none => []
  | some schema =>
    if name = [] ∨ (context.bind (scopeSearch name schema.definitions)).isSome ∨ (schema.findDef name).isSome then []
    else result.importsDefining schema name

variable (result) in
def elsewhere (s : Nat) (context : Option (List Nat)) (name : Text) : Option DefRef :=
  match result.schemas[s]? with
  | none => none
  | some schema =>
    if name = [] then none
    else
      ((context.bind (scopeSearch name schema.definitions)).map (DefRef.mk s)).or
        (((schema.findDef name).map fun i => ⟨s, [i]⟩).or (result.findQualified s schema name))

/-- The first two of some candidates; without any, what the name means otherwise. -/
def firstTwo (candidates : List DefRef) (other : Option DefRef) : Option DefRef × Option DefRef :=
  match candidates with
  | found :: others => (some found, others.head?)
  | [] => (other, none)

theorem resolveSimple_eq (t : Nat) (context : Option (List Nat)) (name : Text) :
    result.resolveSimple t context name =
      firstTwo (result.candidates t context name) (result.elsewhere t context name) := by
  unfold resolveSimple candidates elsewhere
  cases result.schemas[t]? with
  | none => rfl
  | some schema =>
    dsimp only
    by_cases hname : name = []
    · rw [if_pos hname, if_pos (.inl hname), if_pos hname]
      rfl
    · rw [if_neg hname, if_neg hname]
      cases hscope : context.bind (scopeSearch name schema.definitions) with
      | some path => rw [if_pos (.inr (.inl rfl))]; rfl
      | none =>
        cases hown : schema.findDef name with
        | some i => rw [if_pos (.inr (.inr rfl))]; rfl
        | none =>
          rw [if_neg (by rintro (h | h | h); exacts [hname h, absurd h (by decide), absurd h (by decide)])]
          cases result.importsDefining schema name <;> rfl

theorem findVisible_withImports (himports : result.IsReordering s imports) (t : Nat) (name : Text) :
    (result.withImports s imports).findVisible t name = result.findVisible t name := by
  unfold findVisible
  rw [sameDefinitions_withImports.findDef]
  refine congrArg (Option.filter · (result.findDef name)) (funext fun found => ?_)
  exact hasVisibility_withImports himports t found.schema

theorem elsewhere_withImports (himports : result.IsReordering s imports) (t : Nat) (context : Option (List Nat))
    (name : Text) : (result.withImports s imports).elsewhere t context name = result.elsewhere t context name := by
  unfold elsewhere
  rw [getElem?_withImports]
  cases result.schemas[t]? with
  | none => rfl
  | some schema =>
    have hqualified (imports' : List Import) :
        (result.withImports s imports).findQualified t { schema with imports := imports' } name =
          result.findQualified t schema name := by
      unfold findQualified
      rw [findVisible_withImports himports]
      simp only [findVisible_withImports himports]
    rw [Option.map_some]
    by_cases ht : s = t
    · rw [if_pos ht]
      dsimp only
      rw [hqualified imports]
      rfl
    · rw [if_neg ht]
      dsimp only
      rw [← hqualified schema.imports]

theorem importsDefining_withImports (schema : Schema) (name : Text) :
    (result.withImports s imports).importsDefining schema name = result.importsDefining schema name := by
  unfold importsDefining
  refine List.filterMap_congr fun imp _ => ?_
  refine congrArg (Option.bind imp.schema) (funext fun t => ?_)
  exact bind_withImports t _ fun _ => rfl

theorem candidates_withImports (himports : result.IsReordering s imports) (t : Nat) (context : Option (List Nat))
    (name : Text) :
    ((result.withImports s imports).candidates t context name).Perm (result.candidates t context name) := by
  unfold candidates
  rw [getElem?_withImports]
  cases hschema : result.schemas[t]? with
  | none => exact List.Perm.refl _
  | some schema =>
    rw [Option.map_some]
    dsimp only
    rw [importsDefining_withImports]
    split
    · rename_i ht
      subst ht
      have hown : Schema.findDef { schema with imports := imports } name = schema.findDef name := rfl
      rw [hown]
      split
      · exact List.Perm.refl _
      · exact (himports schema hschema).filterMap _
    · exact List.Perm.refl _

theorem followParts_withImports (ref : DefRef) (parts : List Text) :
    (result.withImports s imports).followParts ref parts = result.followParts ref parts := by
  have hnested (ref : DefRef) (part : Text) :
      (result.withImports s imports).findNestedByName ref part = result.findNestedByName ref part := by
    unfold findNestedByName
    rw [sameDefinitions_withImports.def?]
  induction parts generalizing ref with
  | nil => rfl
  | cons part parts ih =>
    cases parts with
    | nil => rw [followParts, followParts, hnested]
    | cons part' parts =>
      rw [followParts, followParts, hnested]
      exact congrArg (Option.bind _) (funext ih)

/-! ## What a name comes to -/

/-- What was found, if it is not ambiguous and may be meant. -/
def unambiguous (keep : DefRef → Bool) (found : Option DefRef × Option DefRef) : Option DefRef :=
  match found with
  | (ref, none) => ref.filter keep
  | (_, some _) => none

variable (result) in
def meaning (keep : DefRef → Bool) (s : Nat) (context : Option (List Nat)) (name : Text) : Option DefRef :=
  unambiguous keep (result.resolveType s context name)

variable (result) in
/-- All definitions of the first part of a dotted name lead to the same. -/
def AgreesOn (keep : DefRef → Bool) (s : Nat) (context : Option (List Nat)) (name : Text) : Prop :=
  match name.span (· ≠ '.') with
  | (_, []) => True
  | (first, _ :: remaining) =>
    ∀ a ∈ result.candidates s context first, ∀ b ∈ result.candidates s context first,
      (result.followParts a (remaining.splitOn '.')).filter keep =
        (result.followParts b (remaining.splitOn '.')).filter keep

variable {keep : DefRef → Bool} {context : Option (List Nat)} {name : Text} {t : Nat}

theorem unambiguous_firstTwo {candidates candidates' : List DefRef} (h : candidates'.Perm candidates)
    (other : Option DefRef) :
    unambiguous keep (firstTwo candidates' other) = unambiguous keep (firstTwo candidates other) := by
  have hlength := h.length_eq
  rcases candidates with _ | ⟨ref, _ | ⟨next, others⟩⟩
  · rw [List.perm_nil.mp h]
  · rw [List.perm_singleton.mp h]
  · -- two candidates make the name ambiguous
    rcases candidates' with _ | ⟨ref', _ | ⟨next', others'⟩⟩
    · cases hlength
    · cases hlength
    · rfl

theorem resolveType_dotted {first remaining : Text} {dot : Char}
    (hspan : name.span (· ≠ '.') = (first, dot :: remaining)) :
    result.resolveType t context name =
      (match result.candidates t context first with
        | found :: _ => result.followParts found (remaining.splitOn '.')
        | [] =>
          match result.elsewhere t context first with
          | none => result.findVisible t name
          | some ref => result.followParts ref (remaining.splitOn '.'), none) := by
  unfold resolveType
  rw [hspan]
  dsimp only
  rw [resolveSimple_eq]
  cases result.candidates t context first with
  | nil =>
    dsimp only
    cases result.elsewhere t context first <;> rfl
  | cons found others => rfl

theorem meaning_withImports (himports : result.IsReordering s imports) (hagrees : result.AgreesOn keep t context name) :
    (result.withImports s imports).meaning keep t context name = result.meaning keep t context name := by
  unfold meaning
  unfold AgreesOn at hagrees
  rcases hspan : name.span (· ≠ '.') with ⟨first, _ | ⟨dot, remaining⟩⟩
  · have hsimple (result : ParseResult) :
        result.resolveType t context name = result.resolveSimple t context name := by
      unfold resolveType
      rw [hspan]
    rw [hsimple, hsimple, resolveSimple_eq, resolveSimple_eq, elsewhere_withImports himports]
    exact unambiguous_firstTwo (candidates_withImports himports t context name) _
  · rw [hspan] at hagrees
    dsimp only at hagrees
    rw [resolveType_dotted hspan, resolveType_dotted hspan, elsewhere_withImports himports,
      findVisible_withImports himports]
    have hperm := candidates_withImports himports t context first
    -- the first candidate of the one order is some candidate of the other
    match hfound : result.candidates t context first, hfound' :
        (result.withImports s imports).candidates t context first with
    | [], [] =>
      dsimp only
      cases result.elsewhere t context first with
      | none => rfl
      | some ref =>
        dsimp only
        rw [followParts_withImports]
    | found :: _, found' :: _ =>
      dsimp only
      rw [followParts_withImports]
      refine hagrees _ (hperm.mem_iff.mp ?_) _ ?_
      · rw [hfound']
        exact List.mem_cons_self
      · rw [hfound]
        exact List.mem_cons_self
    | [], _ :: _ =>
      rw [hfound, hfound'] at hperm
      cases hperm.length_eq
    | _ :: _, [] =>
      rw [hfound, hfound'] at hperm
      cases hperm.length_eq

theorem exists_reordering_first {found : DefRef} (h : found ∈ result.candidates t context name) :
    ∃ imports, result.IsReordering t imports ∧
      ∃ others, (result.withImports t imports).candidates t context name = found :: others := by
  unfold candidates at h
  cases hschema : result.schemas[t]? with
  | none =>
    rw [hschema] at h
    cases h
  | some schema =>
    rw [hschema] at h
    dsimp only at h
    split at h
    · cases h
    · rename_i hnear
      obtain ⟨imp, himp, hfound⟩ := List.mem_filterMap.mp h
      refine ⟨imp :: schema.imports.erase imp, fun schema' hschema' => ?_, ?_⟩
      · rw [hschema, Option.some.injEq] at hschema'
        subst hschema'
        exact (List.perm_cons_erase himp).symm
      · unfold candidates
        rw [getElem?_withImports, hschema, Option.map_some, if_pos rfl]
        dsimp only
        have hown : Schema.findDef { schema with imports := imp :: schema.imports.erase imp } name =
          schema.findDef name := rfl
        rw [hown, if_neg hnear, importsDefining_withImports]
        exact ⟨_, List.filterMap_cons_some hfound⟩

theorem agreesOn_of_meaning (h : ∀ imports, result.IsReordering t imports →
      (result.withImports t imports).meaning keep t context name = result.meaning keep t context name) :
    result.AgreesOn keep t context name := by
  unfold AgreesOn
  rcases hspan : name.span (· ≠ '.') with ⟨first, _ | ⟨dot, remaining⟩⟩
  · trivial
  · have hlead {a : DefRef} (ha : a ∈ result.candidates t context first) :
        (result.followParts a (remaining.splitOn '.')).filter keep = result.meaning keep t context name := by
      obtain ⟨imports, himports, others, hfirst⟩ := exists_reordering_first ha
      rw [← h imports himports]
      unfold meaning
      rw [resolveType_dotted hspan, hfirst]
      dsimp only
      rw [followParts_withImports]
      rfl
    intro a ha b hb
    rw [hlead ha, hlead hb]

end ParseResult

end Bebop.Compiler
