import Bebop.Compiler.Accepted
import Bebop.Compiler.References
import Bebop.Compiler.Register
import Mathlib.Data.List.TakeWhile

/-!
# Bebop — what a name may refer to

A nested definition that is not exported is for the definition it is nested in, and a
`local` definition for its file. The lookup of a name in the scopes around it keeps to that
by itself; of the other routes the validator only turns down services and decorators, and
the inner parts of a union.
-/

namespace Bebop.Compiler

namespace ParseResult

variable (result : ParseResult)

/-- On the way to a definition is one that is not exported, the `k`-th of a scope. -/
def HidesIn (target : DefRef) (scope : List Nat) (k : Nat) : Prop :=
  scope ≠ [] ∧ scope ++ [k] <+: target.path ∧
    ∃ d, result.def? ⟨target.schema, scope ++ [k]⟩ = some d ∧ d.visibility ≠ .visExport

/-- A definition is accessible from another schema, or what hides it is around. -/
structure MaySee (context target : DefRef) : Prop where
  accessible : target.schema ≠ context.schema → result.isAccessible target
  inside : ∀ scope k, result.HidesIn target scope k → target.schema = context.schema ∧ scope <+: context.path

/-- References lead to what their places may refer to, fields to types. -/
def VisibilityKept : Prop :=
  ∀ context ∈ result.registered, ∀ r ∈ result.linkedReferences context,
    ∃ target d, r.resolved = some target ∧ result.def? target = some d ∧ result.MaySee context target ∧
      (r.role = .field → d.kind ∈ [.enum, .struct, .message, .union])

/-! ## Names found nearby -/

/-- A name without dots that the scopes around a place have, or else its file. -/
def FoundNearby (context : DefRef) (name : Text) : Prop :=
  '.' ∉ name ∧ ∃ schema, result.schemas[context.schema]? = some schema ∧
    ((scopeSearch name schema.definitions context.path).isSome ∨ (schema.findDef name).isSome)

variable {result} {context target : DefRef} {name : Text}

theorem resolveType_of_dot_notMem {s : Nat} {context : Option (List Nat)} (h : '.' ∉ name) :
    result.resolveType s context name = result.resolveSimple s context name := by
  have hspan : name.span (· ≠ '.') = (name, []) := by
    have hall (c : Char) (hc : c ∈ name) : (decide (c ≠ '.')) = true :=
      decide_eq_true fun heq => h (heq ▸ hc)
    rw [List.span_eq_takeWhile_dropWhile, List.takeWhile_eq_self_iff.mpr hall, List.dropWhile_eq_nil_iff.mpr hall]
  unfold resolveType
  rw [hspan]

theorem maySee_of_scope {s : Nat} {path scope : List Nat} {k : Nat} (h : scope <+: path) :
    result.MaySee ⟨s, path⟩ ⟨s, scope ++ [k]⟩ := by
  refine ⟨fun hne => absurd rfl hne, fun scope' k' ⟨_, hlead, _⟩ => ⟨rfl, ?_⟩⟩
  have hlength := hlead.length_le
  rw [List.length_append, List.length_append, List.length_singleton, List.length_singleton] at hlength
  have hscope : scope' <+: scope :=
    List.prefix_of_prefix_length_le ((List.prefix_append scope' [k']).trans hlead) (List.prefix_append scope [k])
      (by omega)
  exact hscope.trans h

theorem maySee_of_topLevel {s : Nat} {path : List Nat} {i : Nat} : result.MaySee ⟨s, path⟩ ⟨s, [i]⟩ := by
  refine ⟨fun hne => absurd rfl hne, fun scope k ⟨hne, hlead, _⟩ => ?_⟩
  have hlength := hlead.length_le
  have hpos := List.length_pos_iff.mpr hne
  rw [List.length_append, List.length_singleton, List.length_singleton] at hlength
  omega

theorem FoundNearby.maySee (h : result.FoundNearby context name)
    (htarget : (result.resolveType context.schema (some context.path) name).1 = some target) :
    result.MaySee context target := by
  obtain ⟨hdot, schema, hschema, hfound⟩ := h
  obtain ⟨s, path⟩ := context
  dsimp only at hschema hfound htarget
  rw [resolveType_of_dot_notMem hdot] at htarget
  unfold resolveSimple at htarget
  rw [hschema] at htarget
  dsimp only at htarget
  split at htarget
  · cases htarget
  · rw [Option.bind_some] at htarget
    cases hsearch : scopeSearch name schema.definitions path with
    | some found =>
      rw [hsearch] at htarget
      cases htarget
      obtain ⟨scope, k, rfl, -, hlead, -⟩ := scopeSearch_spec hsearch
      exact maySee_of_scope hlead
    | none =>
      rw [hsearch] at htarget hfound
      rcases hfound with hfound | hfound
      · cases hfound
      · obtain ⟨i, hi⟩ := Option.isSome_iff_exists.mp hfound
        rw [hi] at htarget
        cases htarget
        exact maySee_of_topLevel

/-! ## What the validator leaves unchecked -/

variable (result) in
def isUnion (ref : DefRef) : Prop := (result.def? ref).map Def.kind = some .union

variable (result) in
/-- No field is of a constant's type; and a name that is not found nearby leads to no
inaccessible definition of another schema, but by the union it is an inner part of. -/
def NamesKeepVisibility : Prop :=
  ∀ context ∈ result.registered, ∀ d, result.def? context = some d → ∀ r ∈ d.references, ∀ target,
    (result.resolveType context.schema (some context.path) r.name).1 = some target →
      (r.role = .field → (result.def? target).map Def.kind ≠ some .const) ∧
      (¬result.FoundNearby context r.name →
        (target.schema ≠ context.schema → result.isAccessible target) ∧
        ∀ scope k, result.HidesIn target scope k →
          ¬(scope ++ [k] = target.path ∧ result.isUnion ⟨target.schema, scope⟩) →
            target.schema = context.schema ∧ scope <+: context.path)

theorem inside_of_not_unionInternal {d : Def} {scope : List Nat} {k : Nat} (hd : result.def? target = some d)
    (hinternal : result.unionInternal context target d.visibility = false) (hhides : result.HidesIn target scope k)
    (hlast : scope ++ [k] = target.path) (hunion : result.isUnion ⟨target.schema, scope⟩) :
    target.schema = context.schema ∧ scope <+: context.path := by
  obtain ⟨-, -, e, he, hvisibility⟩ := hhides
  rw [hlast, hd, Option.some.injEq] at he
  subst he
  have hscope : target.path.dropLast = scope := by
    rw [← hlast, List.dropLast_concat]
  obtain ⟨parent, hparent, hkind⟩ := Option.map_eq_some_iff.mp hunion
  unfold unionInternal at hinternal
  rw [hscope, hparent] at hinternal
  dsimp only at hinternal
  rw [hkind, decide_eq_true hvisibility, Bool.and_true, decide_eq_true rfl, Bool.true_and, Bool.not_eq_false',
    Bool.and_eq_true, decide_eq_true_iff, decide_eq_true_iff] at hinternal
  refine ⟨hinternal.1.symm, ?_⟩
  rw [← hinternal.2]
  exact List.dropLast_prefix _

theorem mem_kinds_of_not_badKind {kind : DefKind} (hbad : badKind .fieldType kind = false) (hconst : kind ≠ .const) :
    kind ∈ [.enum, .struct, .message, .union] := by
  revert hbad hconst
  cases kind <;> decide

theorem visibilityKept_iff (hsilent : ∀ ref ∈ result.registered, result.resolveDef ref = []) :
    result.VisibilityKept ↔ result.NamesKeepVisibility := by
  constructor
  · intro h context hcontext d hd r hr target htarget
    obtain ⟨hlinked, -⟩ := linkedReferences_silent hd (hsilent context hcontext)
    have hmem : { r with resolved := some target } ∈ result.linkedReferences context := by
      rw [hlinked, ← htarget]
      exact List.mem_map.mpr ⟨r, hr, rfl⟩
    obtain ⟨target', e, hresolved, he, hsees, hkind⟩ := h context hcontext _ hmem
    cases hresolved
    refine ⟨fun hfield hconst => ?_, fun _ => ⟨hsees.accessible, fun scope k hhides _ => hsees.inside scope k hhides⟩⟩
    rw [he, Option.map_some, Option.some.injEq] at hconst
    have hkinds := hkind hfield
    rw [hconst] at hkinds
    revert hkinds
    decide
  · intro h context hcontext r hr
    obtain ⟨d, hd⟩ := mem_registered.mp hcontext
    obtain ⟨hlinked, hmeans⟩ := linkedReferences_silent hd (hsilent context hcontext)
    rw [hlinked] at hr
    obtain ⟨old, hold, rfl⟩ := List.mem_map.mp hr
    obtain ⟨target, hresolve, hfit⟩ := hmeans old hold
    have htarget : (result.resolveType context.schema (some context.path) old.name).1 = some target := by
      rw [hresolve]
    obtain ⟨e, he⟩ := def?_of_resolveType htarget
    obtain ⟨hbad, hinternal⟩ := hfit e he
    obtain ⟨hconst, hfar⟩ := h context hcontext d hd old hold target htarget
    refine ⟨target, e, htarget, he, ?_, fun hfield => ?_⟩
    · by_cases hnear : result.FoundNearby context old.name
      · exact hnear.maySee htarget
      · obtain ⟨haccessible, hinside⟩ := hfar hnear
        refine ⟨haccessible, fun scope k hhides => ?_⟩
        by_cases hpart : scope ++ [k] = target.path ∧ result.isUnion ⟨target.schema, scope⟩
        · exact inside_of_not_unionInternal he hinternal hhides hpart.1 hpart.2
        · exact hinside scope k hhides hpart
    · have hrole : old.role = .field := hfield
      have hnotConst := hconst hrole
      rw [he, Option.map_some] at hnotConst
      rw [hrole] at hbad
      exact mem_kinds_of_not_badKind hbad fun heq => hnotConst (congrArg some heq)

/-- In a result that is accepted, and of which no error was lost, the references keep to the
visibility exactly if the names do that the validator does not check. -/
theorem visibility_kept_iff (checks : DecoratorChecks) (result : ParseResult) (haccepted : result.Accepted checks)
    (hkeeps : result.KeepsErrors) : result.VisibilityKept ↔ result.NamesKeepVisibility :=
  visibilityKept_iff (first_passes_silent haccepted hkeeps).2

end ParseResult

/-! ## References that are accepted -/

namespace Sample

/-- `struct A { struct X {} f: X; }` -/
def innerField : ParseResult where
  schemas := [.ofDefinitions none [] [record ['A'] [['X']] [scope ['X'] []]] (by decide)]

/-- `local struct S {}`, and a file that imports it with `struct T { f: S; }`. -/
def localImported : ParseResult where
  schemas :=
    [.ofDefinitions none [] [{ scope ['S'] [] with visibility := .visLocal }] (by decide),
      .ofDefinitions none [⟨['a'], nowhere, some 0⟩] [record ['T'] [['S']] []] (by decide)]

/-- `struct A { struct X {} } struct B { f: A.X; }` -/
def innerFromOutside : ParseResult where
  schemas :=
    [.ofDefinitions none [] [scope ['A'] [scope ['X'] []], record ['B'] [['A', '.', 'X']] []] (by decide)]

/-- `const bool C = true; struct D { f: C; }` -/
def constField : ParseResult where
  schemas :=
    [.ofDefinitions none [] [⟨['C'], nowhere, [], .visDefault, [], .const (.scalar nowhere .bool) ⟨nowhere, .bool true⟩⟩,
      record ['D'] [['C']] []] (by decide)]

end Sample

open Sample

namespace ParseResult

theorem visibility_kept_innerField : innerField.VisibilityKept := by
  refine (visibility_kept_iff (fun _ => []) innerField (by decide) ⟨by decide, by decide⟩).mpr ?_
  intro context hcontext d hd r hr target htarget
  have hregistered : innerField.registered = [⟨0, [0, 0]⟩, ⟨0, [0]⟩] := by decide
  rw [hregistered] at hcontext
  rcases List.mem_pair.mp hcontext with rfl | rfl
  · cases hd
    cases hr
  · cases hd
    rw [List.mem_singleton.mp hr] at htarget ⊢
    have hX : target = ⟨0, [0, 0]⟩ := by
      have hmeans : (innerField.resolveType 0 (some [0]) ['X']).1 = some ⟨0, [0, 0]⟩ := by decide
      exact Option.some.inj (htarget.symm.trans hmeans)
    subst hX
    refine ⟨fun _ => by decide, fun hfar => absurd ?_ hfar⟩
    exact ⟨by decide, _, rfl, .inl (by decide)⟩

/-- A local struct of another file, an inner one, and a constant as a type. -/
theorem visibility_kept_fails :
    (localImported.Accepted (fun _ => []) ∧ ¬localImported.VisibilityKept) ∧
    (innerFromOutside.Accepted (fun _ => []) ∧ ¬innerFromOutside.VisibilityKept) ∧
      constField.Accepted (fun _ => []) ∧ ¬constField.VisibilityKept := by
  refine ⟨⟨by decide, fun h => ?_⟩, ⟨by decide, fun h => ?_⟩, by decide, fun h => ?_⟩
  · obtain ⟨target, d, hresolved, -, hsees, -⟩ :=
      h ⟨1, [0]⟩ (by decide) ⟨.field, ['S'], some ⟨0, [0]⟩⟩ (by decide)
    cases hresolved
    exact absurd (hsees.accessible (by decide)) (by decide)
  · obtain ⟨target, d, hresolved, -, hsees, -⟩ :=
      h ⟨0, [1]⟩ (by decide) ⟨.field, ['A', '.', 'X'], some ⟨0, [0, 0]⟩⟩ (by decide)
    cases hresolved
    have hhides : innerFromOutside.HidesIn ⟨0, [0, 0]⟩ [0] 0 := ⟨by decide, by decide, _, rfl, by decide⟩
    exact absurd (hsees.inside [0] 0 hhides).2 (by decide)
  · obtain ⟨target, d, hresolved, hd, -, hkind⟩ :=
      h ⟨0, [1]⟩ (by decide) ⟨.field, ['C'], some ⟨0, [0]⟩⟩ (by decide)
    cases hresolved
    cases hd
    exact absurd (hkind rfl) (by decide)

end ParseResult

end Bebop.Compiler
