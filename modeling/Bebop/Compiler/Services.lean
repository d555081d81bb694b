import Bebop.Compiler.Accepted
import Bebop.Compiler.Methods
import Bebop.Compiler.Register

/-!
# Bebop — services that are composed of others

A service offers its own methods and those of all services it reaches through
mixins. The validator compares the names of some pairs of these services; which
ones, and that it is these and no others, is what its silence says
(`mixinReports_conflictFree`).
-/

namespace Bebop.Compiler

namespace ParseResult

variable (result : ParseResult)

/-- The services that the mixins of a service are, in their order. -/
def mixinServices (ref : DefRef) : List DefRef :=
  ((result.service? ref).map fun x => x.2.filterMap result.mixinService).getD []

def Mixes (ref target : DefRef) : Prop := target ∈ result.mixinServices ref

abbrev Reaches : DefRef → DefRef → Prop := Relation.ReflTransGen result.Mixes

def MethodAt (service : DefRef) (i : Nat) (method : Method) : Prop :=
  ∃ methods mixins, result.service? service = some (methods, mixins) ∧ methods[i]? = some method

/-- A method, by its service and its place there, is one that a service offers. -/
def Offers (ref service : DefRef) (i : Nat) (method : Method) : Prop :=
  result.Reaches ref service ∧ result.MethodAt service i method

/-- Two methods that a service offers differ in this. -/
def OffersDistinct {α : Type} (key : Method → α) (ref : DefRef) : Prop :=
  ∀ service i method service' i' method', result.Offers ref service i method →
    result.Offers ref service' i' method' → key method = key method' → service = service' ∧ i = i'

variable {result}

/-! ## The search for a method -/

theorem serviceHasMethod_isSome {name : Text} {depth : Nat} {ref : DefRef} {found : Option Method}
    (h : result.serviceHasMethod name depth ref = some found) :
    found.isSome ↔ ∃ service i method, result.Offers ref service i method ∧ method.name = name := by
  induction depth generalizing ref found with
  | zero => cases h
  | succ depth ih =>
    unfold serviceHasMethod at h
    split at h
    · rename_i hnone
      cases h
      refine ⟨nofun, ?_⟩
      -- what is no service reaches nothing and has no methods
      rintro ⟨service, i, method, ⟨hreaches, methods, mixins, hservice, -⟩, -⟩
      rcases Relation.ReflTransGen.cases_head hreaches with rfl | ⟨next, hmixes, -⟩
      · rw [hnone] at hservice
        cases hservice
      · unfold Mixes mixinServices at hmixes
        rw [hnone] at hmixes
        cases hmixes
    · rename_i methods mixins hservice
      have hmixins : result.mixinServices ref = mixins.filterMap result.mixinService := by
        unfold mixinServices
        rw [hservice, Option.map_some, Option.getD_some]
      split at h
      · rename_i method hfound
        cases h
        refine ⟨fun _ => ?_, fun _ => rfl⟩
        obtain ⟨i, hi⟩ := List.getElem?_of_mem (List.mem_of_find?_eq_some hfound)
        have hname := List.find?_some hfound
        exact ⟨ref, i, method, ⟨.refl, methods, mixins, hservice, hi⟩, of_decide_eq_true hname⟩
      · rename_i hown
        obtain ⟨hnone, hsome⟩ := Loops.foldlM_search (fun _ _ => rfl) h
        constructor
        · intro hfound
          obtain ⟨method, rfl⟩ := Option.isSome_iff_exists.mp hfound
          obtain ⟨mixin, hmixin, hsearch⟩ := hsome method rfl
          obtain ⟨service, i, method', ⟨hreaches, hmethod⟩, hname⟩ := (ih hsearch).mp rfl
          have hmixes : result.Mixes ref mixin := by
            unfold Mixes
            rwa [hmixins]
          exact ⟨service, i, method', ⟨.head hmixes hreaches, hmethod⟩, hname⟩
        · rintro ⟨service, i, method, ⟨hreaches, hmethod⟩, hname⟩
          rcases Relation.ReflTransGen.cases_head hreaches with rfl | ⟨next, hmixes, hrest⟩
          · obtain ⟨methods', mixins', hservice', hi⟩ := hmethod
            rw [hservice] at hservice'
            cases hservice'
            exact absurd (decide_eq_true hname) (List.find?_eq_none.mp hown method (List.mem_of_getElem? hi))
          · cases found with
            | some found => rfl
            | none =>
              unfold Mixes at hmixes
              rw [hmixins] at hmixes
              have hsearch := hnone.mp rfl next hmixes
              exact (ih hsearch).mpr ⟨service, i, method, ⟨hrest, hmethod⟩, hname⟩

/-! ## What is compared -/

/-- None of some reports is about a conflict of methods. -/
def ConflictFree (reports : List Report) : Prop := ∀ report ∈ reports, report.loc.code ≠ 151

theorem conflictFree_append {reports reports' : List Report} :
    ConflictFree (reports ++ reports') ↔ ConflictFree reports ∧ ConflictFree reports' :=
  List.forall_mem_append

theorem mixinMethodReports_conflictFree {methods : List Method} {later : List Ty} {mixinType : Ty} {mixinName : Text}
    {method : Method} {reports : List Report}
    (h : result.mixinMethodReports methods later mixinType mixinName method = some reports) :
    ConflictFree reports ↔ (∀ own ∈ methods, own.name ≠ method.name) ∧
      ∀ other ∈ later.filterMap result.mixinService, ∀ service i method', result.Offers other service i method' →
        method'.name ≠ method.name := by
  unfold mixinMethodReports at h
  dsimp only at h
  obtain ⟨lists, hlists, rfl⟩ := Option.map_eq_some_iff.mp h
  obtain ⟨hto, hfrom⟩ := Loops.mapM_eq_some hlists
  rw [conflictFree_append]
  refine and_congr ?_ ?_
  · split
    · rename_i hnone
      refine ⟨fun _ own hown heq => ?_, fun _ => nofun⟩
      exact List.find?_eq_none.mp hnone own hown (decide_eq_true heq)
    · rename_i existing hfound
      have hname := List.find?_some hfound
      constructor
      · intro hfree
        exact absurd rfl (hfree _ List.mem_cons_self)
      · intro hown
        exact absurd (of_decide_eq_true hname) (hown existing (List.mem_of_find?_eq_some hfound))
  · constructor
    · intro hfree other hother service i method' hoffers heq
      obtain ⟨list, hlist, hsearch⟩ := hto other hother
      obtain ⟨found, hfound, rfl⟩ := Option.map_eq_some_iff.mp hsearch
      obtain ⟨some', rfl⟩ := Option.isSome_iff_exists.mp
        ((serviceHasMethod_isSome hfound).mpr ⟨service, i, method', hoffers, heq⟩)
      exact hfree _ (List.mem_flatten.mpr ⟨_, hlist, List.mem_cons_self⟩) rfl
    · intro hall report hreport
      exfalso
      obtain ⟨list, hlist, hreport⟩ := List.mem_flatten.mp hreport
      obtain ⟨other, hother, hsearch⟩ := hfrom list hlist
      obtain ⟨found, hfound, rfl⟩ := Option.map_eq_some_iff.mp hsearch
      cases found with
      | none => cases hreport
      | some found =>
        obtain ⟨service, i, method', hoffers, heq⟩ := (serviceHasMethod_isSome hfound).mp rfl
        exact hall other hother service i method' hoffers heq

/-- The methods of each mixin differ from the service's and those of later mixins. -/
def MixinsApart (result : ParseResult) (methods : List Method) (services : List DefRef) : Prop :=
  ∀ before target later, services = before ++ target :: later → ∀ i method, result.MethodAt target i method →
    (∀ own ∈ methods, own.name ≠ method.name) ∧
      ∀ other ∈ later, ∀ service i' method', result.Offers other service i' method' → method'.name ≠ method.name

theorem mixinsApart_cons {methods : List Method} {target : DefRef} {services : List DefRef} :
    MixinsApart result methods (target :: services) ↔
      (∀ i method, result.MethodAt target i method → (∀ own ∈ methods, own.name ≠ method.name) ∧
        ∀ other ∈ services, ∀ service i' method', result.Offers other service i' method' →
          method'.name ≠ method.name) ∧ MixinsApart result methods services := by
  constructor
  · intro h
    refine ⟨h [] target services rfl, fun before target' later heq => ?_⟩
    exact h (target :: before) target' later (by rw [heq, List.cons_append])
  · rintro ⟨hfirst, hrest⟩ before target' later heq
    cases before with
    | nil =>
      cases heq
      exact hfirst
    | cons first before =>
      cases heq
      exact hrest before target' later rfl

theorem mixinReports_conflictFree {methods : List Method} {mixins : List Ty} {reports : List Report}
    (h : result.mixinReports methods mixins = some reports) :
    ConflictFree reports ↔ MixinsApart result methods (mixins.filterMap result.mixinService) := by
  induction mixins generalizing reports with
  | nil =>
    cases h
    constructor
    · intro _ before target later heq
      have hlength := congrArg List.length heq
      rw [List.filterMap_nil, List.length_append, List.length_cons, List.length_nil] at hlength
      omega
    · intro _ report hreport
      cases hreport
  | cons mixin later ih =>
    unfold mixinReports at h
    dsimp only at h
    obtain ⟨first, hfirst, h⟩ := Option.bind_eq_some_iff.mp h
    obtain ⟨rest, hrest, rfl⟩ := Option.map_eq_some_iff.mp h
    rw [conflictFree_append, ih hrest]
    split at hfirst
    · rename_i span name target
      split at hfirst
      · rename_i hnone
        cases hfirst
        have hskip : result.mixinService (.defined span name (some target)) = none := by
          unfold mixinService
          dsimp only
          rw [hnone]
          rfl
        rw [List.filterMap_cons_none hskip]
        refine and_iff_right fun report hreport => ?_
        rw [List.mem_singleton.mp hreport]
        intro hconflict
        cases hconflict
      · rename_i mixinMethods mixins hservice
        have htarget : result.mixinService (.defined span name (some target)) = some target := by
          unfold mixinService
          dsimp only
          rw [hservice]
          rfl
        rw [List.filterMap_cons_some htarget, mixinsApart_cons]
        refine and_congr_left fun _ => ?_
        obtain ⟨lists, hlists, rfl⟩ := Option.map_eq_some_iff.mp hfirst
        obtain ⟨hto, hfrom⟩ := Loops.mapM_eq_some hlists
        constructor
        · rintro hfree i method ⟨methods', mixins', hservice', hi⟩
          rw [hservice] at hservice'
          cases hservice'
          obtain ⟨list, hlist, hmethod⟩ := hto method (List.mem_of_getElem? hi)
          refine (mixinMethodReports_conflictFree hmethod).mp fun report hreport => ?_
          exact hfree report (List.mem_flatten.mpr ⟨list, hlist, hreport⟩)
        · intro hall report hreport
          obtain ⟨list, hlist, hreport⟩ := List.mem_flatten.mp hreport
          obtain ⟨method, hmem, hmethod⟩ := hfrom list hlist
          obtain ⟨i, hi⟩ := List.getElem?_of_mem hmem
          exact (mixinMethodReports_conflictFree hmethod).mpr (hall i method ⟨_, _, hservice, hi⟩) report hreport
    · rename_i hother
      cases hfirst
      have hskip : result.mixinService mixin = none := by
        unfold mixinService
        split
        · rename_i span name target
          exact absurd rfl (hother span name target)
        · rfl
      rw [List.filterMap_cons_none hskip]
      exact and_iff_right fun report hreport => by cases hreport

end ParseResult

/-! ## Services to try things on -/

namespace Sample

/-- Methods of the given names, all from `R` to `R`. -/
def methods (names : List Text) : List Method :=
  names.map fun name =>
    ⟨name, nowhere, nowhere, [], .defined nowhere ['R'] none, .defined nowhere ['R'] none, .unary, 0⟩

def service (name : Text) (methodNames mixins : List Text) : Def :=
  ⟨name, nowhere, [], .visDefault, [],
    .service (parseMethods name ⟨[], []⟩ (methods methodNames)).2.methods
      (mixins.map fun mixin => .defined nowhere mixin none)⟩

theorem methodsParsed_service {name : Text} {methodNames mixins : List Text}
    (h : (parseMethods name ⟨[], []⟩ (methods methodNames)).1 = []) :
    (service name methodNames mixins).MethodsParsed := by
  intro methods' mixins' hbody
  cases hbody
  exact ⟨methods methodNames, _, Prod.ext h rfl⟩

theorem methodsParsed_record {name : Text} {types : List Text} {nestedDefs : List Def} :
    (record name types nestedDefs).MethodsParsed := fun _ _ => nofun

/-- `struct R {}`, and services in the same file. -/
def services (definitions : List Def)
    (parsed : (placesFrom 0 (scope ['R'] [] :: definitions)).all fun path =>
      (definitionAt (scope ['R'] [] :: definitions) path).all Def.isParsed) : ParseResult where
  schemas := [.ofDefinitions none [] (scope ['R'] [] :: definitions) parsed]

/-- `service A { M(R): R; } service B with A {}` -/
def oneMixin : ParseResult := services [service ['A'] [['M']] [], service ['B'] [] [['A']]] (by decide)

end Sample

end Bebop.Compiler
