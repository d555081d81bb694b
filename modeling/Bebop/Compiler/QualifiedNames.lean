import Bebop.Compiler.Accepted
import Bebop.Compiler.Register

/-!
# Bebop — fully qualified names and the definitions they name

Within one schema a fully qualified name spells out the names on the way to a definition;
it is unique if no two definitions of one scope share a name. Between schemas, the
validator compares a definition with the first one of its name and with no other.
-/

namespace Bebop.Compiler

/-! ## The names on the way to a place -/

/-- The names of the definitions on the way to a place. -/
def namesAt : List Def → List Nat → Option (List Text)
  | _, [] => some []
  | defs, i :: path => defs[i]?.bind fun d => (namesAt d.nestedDefs path).map (List.cons d.name)

theorem namesAt_concat (defs : List Def) (path : List Nat) (k : Nat) :
    namesAt defs (path ++ [k]) =
      (namesAt defs path).bind fun names =>
        (definitionAt defs (path ++ [k])).map fun d => names ++ [d.name] := by
  induction path generalizing defs with
  | nil =>
    rw [List.nil_append, namesAt, namesAt, definitionAt, Option.bind_some]
    cases defs[k]? with
    | none => rfl
    | some d => rfl
  | cons i path ih =>
    rw [List.cons_append, namesAt, namesAt]
    cases hi : defs[i]? with
    | none => rfl
    | some d =>
      rw [Option.bind_some, Option.bind_some, ih]
      have hdefinition : definitionAt defs (i :: (path ++ [k])) = definitionAt d.nestedDefs (path ++ [k]) := by
        cases path with
        | nil =>
          simp only [List.nil_append, definitionAt]
          rw [hi, Option.bind_some]
        | cons j path => rw [List.cons_append, definitionAt, hi, Option.bind_some]
      rw [hdefinition]
      cases namesAt d.nestedDefs path with
      | none => rfl
      | some names => cases definitionAt d.nestedDefs (path ++ [k]) <;> rfl

theorem length_of_namesAt {defs : List Def} {path : List Nat} {names : List Text}
    (h : namesAt defs path = some names) : names.length = path.length := by
  induction path generalizing defs names with
  | nil =>
    rw [namesAt, Option.some.injEq] at h
    rw [← h]
    rfl
  | cons i path ih =>
    rw [namesAt] at h
    obtain ⟨d, -, h⟩ := Option.bind_eq_some_iff.mp h
    obtain ⟨rest, hrest, rfl⟩ := Option.map_eq_some_iff.mp h
    rw [List.length_cons, List.length_cons, ih hrest]

theorem namesAt_concat_eq_some {defs : List Def} {path : List Nat} {k : Nat} {names : List Text}
    (h : namesAt defs (path ++ [k]) = some names) :
    ∃ before d, namesAt defs path = some before ∧ definitionAt defs (path ++ [k]) = some d ∧
      names = before ++ [d.name] := by
  rw [namesAt_concat] at h
  obtain ⟨before, hbefore, h⟩ := Option.bind_eq_some_iff.mp h
  obtain ⟨d, hd, rfl⟩ := Option.map_eq_some_iff.mp h
  exact ⟨before, d, hbefore, hd, rfl⟩

theorem joinDotted_joinDotted (scope : Option Text) (name rest : Text) :
    joinDotted (some (joinDotted scope name)) rest = joinDotted scope (name ++ '.' :: rest) := by
  cases scope with
  | none => rfl
  | some scope =>
    simp only [joinDotted]
    rw [List.append_assoc, List.cons_append]

theorem joinDotted_injective (scope : Option Text) : Function.Injective (joinDotted scope) := by
  intro a b h
  cases scope with
  | none => exact h
  | some scope => exact (List.cons.inj (List.append_cancel_left h)).2

theorem fqnAt_eq (scope : Option Text) (defs : List Def) {path : List Nat} (hpath : path ≠ []) :
    fqnAt scope defs path = (namesAt defs path).map fun names => joinDotted scope (['.'].intercalate names) := by
  induction path generalizing scope defs with
  | nil => exact absurd rfl hpath
  | cons i path ih =>
    cases path with
    | nil =>
      rw [fqnAt, namesAt]
      cases defs[i]? with
      | none => rfl
      | some d => rw [Option.bind_some, namesAt, Option.map_some, Option.map_some, Option.map_some,
          List.intercalate_singleton]
    | cons j path =>
      rw [fqnAt, namesAt]
      cases defs[i]? with
      | none => rfl
      | some d =>
        rw [Option.bind_some, Option.bind_some, ih _ _ (List.cons_ne_nil _ _), Option.map_map]
        -- the names of the rest are not empty, so that a dot comes before them
        rw [namesAt]
        cases d.nestedDefs[j]? with
        | none => rfl
        | some e =>
          rw [Option.bind_some]
          cases namesAt e.nestedDefs path with
          | none => rfl
          | some names =>
            rw [Option.map_some, Option.map_some, Option.map_some, Function.comp_apply,
              joinDotted_joinDotted, List.intercalate_cons_cons]
            rw [List.append_assoc, List.singleton_append]

theorem namesAt_isSome {defs : List Def} {path : List Nat} {d : Def} (h : definitionAt defs path = some d) :
    ∃ names, namesAt defs path = some names := by
  have hpath : path ≠ [] := by
    rintro rfl
    cases h
  have hfqn : (fqnAt none defs path).isSome = (definitionAt defs path).isSome := fqnAt_isSome none
  rw [h, fqnAt_eq none defs hpath, Option.isSome_map] at hfqn
  exact Option.isSome_iff_exists.mp hfqn

theorem Schema.dot_notMem_of_namesAt (schema : Schema) {path : List Nat} {names : List Text}
    (h : namesAt schema.definitions path = some names) : ∀ name ∈ names, '.' ∉ name := by
  induction path using List.reverseRecOn generalizing names with
  | nil =>
    rw [namesAt, Option.some.injEq] at h
    rw [← h]
    exact nofun
  | append_singleton path k ih =>
    obtain ⟨before, d, hbefore, hd, rfl⟩ := namesAt_concat_eq_some h
    intro name hname
    rcases List.mem_append.mp hname with hmem | hmem
    · exact ih hbefore name hmem
    · rw [List.mem_singleton.mp hmem]
      exact (schema.parsed _ d hd).dot_notMem_name

namespace ParseResult

variable {result : ParseResult}

variable (result) in
/-- No two definitions of one scope, be it a file or a definition, share a name. -/
def SiblingsDiffer : Prop :=
  ∀ a ∈ result.registered, ∀ b ∈ result.registered, a.schema = b.schema → a.path.dropLast = b.path.dropLast →
    (result.def? a).map Def.name = (result.def? b).map Def.name → a = b

theorem SiblingsDiffer.eq_of_namesAt (h : result.SiblingsDiffer) {s : Nat} {schema : Schema}
    (hschema : result.schemas[s]? = some schema) {p q : List Nat} {names : List Text}
    (hp : namesAt schema.definitions p = some names) (hq : namesAt schema.definitions q = some names) : p = q := by
  have hlength := (length_of_namesAt hp).symm.trans (length_of_namesAt hq)
  induction p using List.reverseRecOn generalizing q names with
  | nil => exact (List.eq_nil_of_length_eq_zero hlength.symm).symm
  | append_singleton p i ih =>
    obtain ⟨q, j, rfl⟩ : ∃ q' j, q = q' ++ [j] := by
      rcases List.eq_nil_or_concat' q with rfl | hconcat
      · rw [List.length_append, List.length_singleton, List.length_nil] at hlength
        omega
      · exact hconcat
    obtain ⟨before, d, hbefore, hd, rfl⟩ := namesAt_concat_eq_some hp
    obtain ⟨before', e, hbefore', he, hnames⟩ := namesAt_concat_eq_some hq
    obtain ⟨rfl, hlast⟩ := List.append_inj' hnames rfl
    -- the scopes have the same names on the way, and the definitions are siblings
    have hscope : p = q := by
      refine ih hbefore hbefore' ?_
      rw [List.length_append, List.length_append] at hlength
      exact Nat.add_right_cancel hlength
    subst hscope
    rw [← def?_eq hschema] at hd he
    have hname : (some d).map Def.name = (some e).map Def.name := congrArg some (List.cons.inj hlast).1
    have hsame := h _ (mem_registered.mpr ⟨d, hd⟩) _ (mem_registered.mpr ⟨e, he⟩) rfl
      (by rw [List.dropLast_concat, List.dropLast_concat]) (by rw [hd, he, hname])
    exact congrArg DefRef.path hsame

theorem SiblingsDiffer.eq_of_fqn (h : result.SiblingsDiffer) {a b : DefRef} {d e : Def}
    (ha : result.def? a = some d) (hb : result.def? b = some e) (hschema : a.schema = b.schema)
    (hfqn : result.fqn a = result.fqn b) : a = b := by
  obtain ⟨s, p⟩ := a
  obtain ⟨s', q⟩ := b
  dsimp only at hschema
  subst hschema
  obtain ⟨schema, hs, hd⟩ := Option.bind_eq_some_iff.mp ha
  dsimp only at hs hd
  rw [def?_eq hs] at hb
  have hpNil : p ≠ [] := by
    rintro rfl
    cases hd
  have hqNil : q ≠ [] := by
    rintro rfl
    cases hb
  obtain ⟨names, hp⟩ := namesAt_isSome hd
  obtain ⟨names', hq⟩ := namesAt_isSome hb
  rw [fqn_eq hs, fqn_eq hs, fqnAt_eq _ _ hpNil, fqnAt_eq _ _ hqNil, hp, hq, Option.map_some, Option.map_some,
    Option.some.injEq] at hfqn
  have hjoined := joinDotted_injective _ hfqn
  have hne : names ≠ [] := List.ne_nil_of_length_pos (by
    rw [length_of_namesAt hp]
    exact List.length_pos_iff.mpr hpNil)
  have hne' : names' ≠ [] := List.ne_nil_of_length_pos (by
    rw [length_of_namesAt hq]
    exact List.length_pos_iff.mpr hqNil)
  -- the names are what the dots separate
  have hnames : names = names' := by
    rw [← List.splitOn_intercalate '.' (schema.dot_notMem_of_namesAt hp) hne, hjoined,
      List.splitOn_intercalate '.' (schema.dot_notMem_of_namesAt hq) hne']
  subst hnames
  rw [h.eq_of_namesAt hs hp hq]

theorem fqn_eq_of_siblings {s : Nat} {p q : List Nat} {d e : Def} (ha : result.def? ⟨s, p⟩ = some d)
    (hb : result.def? ⟨s, q⟩ = some e) (hscope : p.dropLast = q.dropLast) (hname : d.name = e.name) :
    result.fqn ⟨s, p⟩ = result.fqn ⟨s, q⟩ := by
  obtain ⟨schema, hs, hd⟩ := Option.bind_eq_some_iff.mp ha
  dsimp only at hs hd
  rw [def?_eq hs] at hb
  have hpNil : p ≠ [] := by
    rintro rfl
    cases hd
  have hqNil : q ≠ [] := by
    rintro rfl
    cases hb
  rw [fqn_eq hs, fqn_eq hs, fqnAt_eq _ _ hpNil, fqnAt_eq _ _ hqNil]
  obtain ⟨p, i, rfl⟩ := (List.eq_nil_or_concat' p).resolve_left hpNil
  obtain ⟨q, j, rfl⟩ := (List.eq_nil_or_concat' q).resolve_left hqNil
  rw [List.dropLast_concat, List.dropLast_concat] at hscope
  rw [namesAt_concat, namesAt_concat, hd, hb, hscope]
  simp only [Option.map_some, hname]

/-! ## Names that identify definitions -/

variable (result) in
/-- Definitions of one fully qualified name are the same, or one's schema imports the other's. -/
def NamesIdentify : Prop :=
  ∀ a ∈ result.registered, ∀ b ∈ result.registered, a ≠ b → result.fqn a = result.fqn b →
    a.schema ≠ b.schema ∧ (result.hasVisibility a.schema b.schema ∨ result.hasVisibility b.schema a.schema)

variable (result) in
/-- Of two schemas behind the first with a name, one imports the other. -/
def OthersRelated : Prop :=
  ∀ a ∈ result.registered, ∀ b ∈ result.registered, a.schema ≠ b.schema → result.fqn a = result.fqn b →
    (result.fqn a).bind result.findDef ≠ some a → (result.fqn a).bind result.findDef ≠ some b →
      result.hasVisibility a.schema b.schema ∨ result.hasVisibility b.schema a.schema

theorem related_of_multipleDefinitions {first ref : DefRef} {d : Def}
    (hsilent : result.multipleDefinitions ref = []) (hd : result.def? ref = some d)
    (hfirst : (result.fqn ref).bind result.findDef = some first) (hne : first ≠ ref) (hschema : first.schema ≠ ref.schema) :
    result.hasVisibility ref.schema first.schema ∨ result.hasVisibility first.schema ref.schema := by
  by_contra hnone
  rw [not_or, Bool.not_eq_true, Bool.not_eq_true] at hnone
  have helsewhere : result.definedElsewhere ref = some first := by
    obtain ⟨fqn, hfqn, hfound⟩ := Option.bind_eq_some_iff.mp hfirst
    unfold definedElsewhere
    rw [hfqn, Option.bind_some, hfound, Option.filter_some, if_pos]
    rw [decide_eq_true hne, decide_eq_true hschema, hnone.1, hnone.2]
    rfl
  unfold multipleDefinitions at hsilent
  rw [helsewhere, hd] at hsilent
  cases hsilent

theorem namesIdentify_iff (hsilent : ∀ ref ∈ result.registered, result.multipleDefinitions ref = []) :
    result.NamesIdentify ↔ result.SiblingsDiffer ∧ result.OthersRelated := by
  constructor
  · intro h
    refine ⟨fun a ha b hb hschema hscope hname => ?_, fun a ha b hb hschema hfqn _ _ => ?_⟩
    · by_contra hne
      obtain ⟨s, p⟩ := a
      obtain ⟨s', q⟩ := b
      dsimp only at hschema hscope
      subst hschema
      obtain ⟨d, hd⟩ := mem_registered.mp ha
      obtain ⟨e, he⟩ := mem_registered.mp hb
      rw [hd, he, Option.map_some, Option.map_some, Option.some.injEq] at hname
      exact (h _ ha _ hb hne (fqn_eq_of_siblings hd he hscope hname)).1 rfl
    · exact (h a ha b hb (fun hab => hschema (congrArg DefRef.schema hab)) hfqn).2
  · rintro ⟨hsiblings, hothers⟩ a ha b hb hne hfqn
    obtain ⟨d, hd⟩ := mem_registered.mp ha
    obtain ⟨e, he⟩ := mem_registered.mp hb
    have hschema : a.schema ≠ b.schema := fun hsame => hne (hsiblings.eq_of_fqn hd he hsame hfqn)
    refine ⟨hschema, ?_⟩
    -- either one of the two is the first, with which the other has been compared
    by_cases hfirstA : (result.fqn a).bind result.findDef = some a
    · rw [hfqn] at hfirstA
      exact (related_of_multipleDefinitions (hsilent b hb) he hfirstA hne hschema).symm
    by_cases hfirstB : (result.fqn a).bind result.findDef = some b
    · exact related_of_multipleDefinitions (hsilent a ha) hd hfirstB (Ne.symm hne) (Ne.symm hschema)
    -- or the two have not been compared
    · exact hothers a ha b hb hschema hfqn hfirstA hfirstB

/-- In a result that the validator accepts, and of which it has lost no error, the names
identify the definitions exactly if no two of one scope share a name and the schemas that
the check does not compare are related. -/
theorem names_identify_iff (checks : DecoratorChecks) (result : ParseResult) (haccepted : result.Accepted checks)
    (hkeeps : result.KeepsErrors) : result.NamesIdentify ↔ result.SiblingsDiffer ∧ result.OthersRelated :=
  namesIdentify_iff (first_passes_silent haccepted hkeeps).1

end ParseResult

/-! ## Two definitions of a name that are accepted -/

namespace Sample

/-- `struct X {}`, and a file that imports it with a `struct X {}` of its own. -/
def shadowed : ParseResult where
  schemas :=
    [.ofDefinitions none [] [scope ['X'] []] (by decide),
      .ofDefinitions none [⟨['a'], nowhere, some 0⟩] [scope ['X'] []] (by decide)]

/-- `struct A { struct X {} struct X {} }` -/
def nestedTwice : ParseResult where
  schemas := [.ofDefinitions none [] [scope ['A'] [scope ['X'] [], scope ['X'] []]] (by decide)]

/-- `package p struct X {}`, and two importing files of it with their own. -/
def importedTwice : ParseResult where
  schemas :=
    [.ofDefinitions (some ['p']) [] [scope ['X'] []] (by decide),
      .ofDefinitions (some ['p']) [⟨['a'], nowhere, some 0⟩] [scope ['X'] []] (by decide),
      .ofDefinitions (some ['p']) [⟨['a'], nowhere, some 0⟩] [scope ['X'] []] (by decide)]

end Sample

open Sample

namespace ParseResult

theorem names_identify_shadowed : shadowed.NamesIdentify :=
  (names_identify_iff (fun _ => []) shadowed (by decide) ⟨by decide, by decide⟩).mpr
    ⟨by unfold SiblingsDiffer; decide, by unfold OthersRelated; decide⟩

/-- Two definitions of one name in a struct, and in two unrelated files. -/
theorem names_identify_fails :
    (nestedTwice.Accepted (fun _ => []) ∧ ¬nestedTwice.NamesIdentify) ∧
      importedTwice.Accepted (fun _ => []) ∧ ¬importedTwice.NamesIdentify := by
  unfold NamesIdentify
  decide

end ParseResult

end Bebop.Compiler
