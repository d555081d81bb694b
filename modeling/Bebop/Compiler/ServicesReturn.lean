import Bebop.Compiler.Services
import Bebop.Lib.DepthFirst

/-!
# Bebop — services that are validated in finite time

`bebop__validate_service_has_method` goes through the mixins of a service, and theirs,
without a mark where it has been. Cycles of mixins are only refused later, by the sort,
so that a search for a name that is not found before it comes to a cycle does not return.
-/

namespace Bebop.Compiler

open DepthFirst

namespace ParseResult

variable (result : ParseResult)

/-- The first method of a name that a service declares itself. -/
def ownMethod (name : Text) (ref : DefRef) : Option Method :=
  (result.service? ref).bind fun service => service.1.find? fun method => method.name = name

/-- A search for the name of a mixin's method, in a mixin that comes after it. -/
def Searches (d : Def) (name : Text) (other : DefRef) : Prop :=
  ∃ methods before mixin later target, d.body = .service methods (before ++ mixin :: later) ∧
    result.mixinService mixin = some target ∧ (∃ i method, result.MethodAt target i method ∧ method.name = name) ∧
    other ∈ later.filterMap result.mixinService

/-- The search for a name comes to a service that declares it past mixins without the name
and without cycles behind them, or there are no other mixins. -/
def SearchEnds (name : Text) (ref : DefRef) : Prop :=
  Exhausted (result.ownMethod name) result.mixinServices ref ∨ Finds (result.ownMethod name) result.mixinServices ref

/-- Every definition is validated, and every search on the way returns. -/
def ServicesReturn : Prop :=
  ∀ ref d, result.def? ref = some d → (result.validateService d).isSome ∧
    ∀ name other, result.Searches d name other → ∃ depth, (result.serviceHasMethod name depth other).isSome

variable {result}

/-! ## The search -/

theorem service?_isSome_of_mixinService {mixin : Ty} {target : DefRef} (h : result.mixinService mixin = some target) :
    (result.service? target).isSome := by
  unfold mixinService at h
  split at h
  · split at h
    · rename_i hservice
      cases h
      exact hservice
    · cases h
  · cases h

theorem mixinServices_eq {ref : DefRef} {service : List Method × List Ty} (h : result.service? ref = some service) :
    result.mixinServices ref = service.2.filterMap result.mixinService := by
  unfold mixinServices
  rw [h, Option.map_some, Option.getD_some]

theorem serviceHasMethod_eq (name : Text) (depth : Nat) (ref : DefRef) :
    result.serviceHasMethod name depth ref = search (result.ownMethod name) result.mixinServices depth ref := by
  induction depth generalizing ref with
  | zero => rfl
  | succ depth ih =>
    rw [serviceHasMethod, search]
    cases hservice : result.service? ref with
    | none =>
      have hown : result.ownMethod name ref = none := by
        unfold ownMethod
        rw [hservice, Option.bind_none]
      have hmixins : result.mixinServices ref = [] := by
        unfold mixinServices
        rw [hservice, Option.map_none, Option.getD_none]
      rw [hown, hmixins]
      rfl
    | some service =>
      have hown : result.ownMethod name ref = service.1.find? fun method => method.name = name := by
        unfold ownMethod
        rw [hservice, Option.bind_some]
      rw [hown, mixinServices_eq hservice]
      dsimp only
      cases service.1.find? fun method => method.name = name with
      | some method => rfl
      | none =>
        refine congrArg (fun step => List.foldlM step none _) (funext fun found => funext fun mixin => ?_)
        cases found with
        | some method => rfl
        | none => exact ih mixin

theorem mem_registered_of_reaches {ref target : DefRef} (h : DepthFirst.Reaches result.mixinServices ref target) :
    target ∈ ref :: result.registered := by
  rcases Relation.ReflTransGen.cases_tail h with rfl | ⟨before, -, hmixes⟩
  · exact List.mem_cons_self
  · refine List.mem_cons_of_mem _ (mem_registered.mpr ?_)
    have hmem : target ∈ result.mixinServices before := hmixes
    cases hservice : result.service? before with
    | none =>
      unfold mixinServices at hmem
      rw [hservice] at hmem
      cases hmem
    | some service =>
      rw [mixinServices_eq hservice] at hmem
      obtain ⟨mixin, -, hmixin⟩ := List.mem_filterMap.mp hmem
      obtain ⟨found, hfound⟩ := Option.isSome_iff_exists.mp (service?_isSome_of_mixinService hmixin)
      obtain ⟨d, hd, -⟩ := Option.bind_eq_some_iff.mp hfound
      exact ⟨d, hd⟩

theorem serviceHasMethod_returns {name : Text} {ref : DefRef} :
    (∃ depth, (result.serviceHasMethod name depth ref).isSome) ↔
      (result.serviceHasMethod name (result.registered.length + 1) ref).isSome := by
  refine ⟨fun h => ?_, fun h => ⟨_, h⟩⟩
  simp only [serviceHasMethod_eq] at h ⊢
  have hends := search_ends_nodes (fun _ hreaches => mem_registered_of_reaches hreaches) h
  exact hends

theorem serviceHasMethod_ends_iff {name : Text} {ref : DefRef} :
    (∃ depth, (result.serviceHasMethod name depth ref).isSome) ↔ result.SearchEnds name ref := by
  simp only [serviceHasMethod_eq]
  exact search_ends_iff fun _ hreaches => mem_registered_of_reaches hreaches

/-! ## The validation of a service -/

theorem mixinMethodReports_isSome {methods : List Method} {later : List Ty} {mixinType : Ty} {mixinName : Text}
    {method : Method} : (result.mixinMethodReports methods later mixinType mixinName method).isSome ↔
      ∀ other ∈ later.filterMap result.mixinService,
        (result.serviceHasMethod method.name (result.registered.length + 1) other).isSome := by
  unfold mixinMethodReports
  rw [Option.isSome_map, Loops.mapM_isSome]
  simp only [Option.isSome_map]

theorem mixinReports_cons_isSome {methods : List Method} {mixin : Ty} {later : List Ty} :
    (result.mixinReports methods (mixin :: later)).isSome ↔
      (∀ target, result.mixinService mixin = some target → ∀ i method, result.MethodAt target i method →
        ∀ other ∈ later.filterMap result.mixinService,
          (result.serviceHasMethod method.name (result.registered.length + 1) other).isSome) ∧
        (result.mixinReports methods later).isSome := by
  have hbind (first : Option (List Report)) : (first.bind fun reports =>
      (result.mixinReports methods later).map fun others => reports ++ others).isSome ↔
        first.isSome ∧ (result.mixinReports methods later).isSome := by
    cases first with
    | none => exact ⟨nofun, fun h => nomatch h.1⟩
    | some reports =>
      rw [Option.bind_some, Option.isSome_map]
      exact (and_iff_right rfl).symm
  conv_lhs => unfold mixinReports
  rw [hbind]
  refine and_congr_left fun _ => ?_
  split
  · rename_i span name target
    split
    · rename_i hnone
      refine iff_of_true rfl fun target' htarget => ?_
      have hskip : result.mixinService (.defined span name (some target)) = none := by
        unfold mixinService
        dsimp only
        rw [hnone]
        rfl
      rw [hskip] at htarget
      cases htarget
    · rename_i mixinMethods mixins hservice
      have htarget : result.mixinService (.defined span name (some target)) = some target := by
        unfold mixinService
        dsimp only
        rw [hservice]
        rfl
      rw [Option.isSome_map, Loops.mapM_isSome, htarget]
      constructor
      · rintro hall _ ⟨⟩ i method ⟨methods', mixins', hservice', hi⟩
        rw [hservice] at hservice'
        cases hservice'
        exact mixinMethodReports_isSome.mp (hall method (List.mem_of_getElem? hi))
      · intro hall method hmethod
        obtain ⟨i, hi⟩ := List.getElem?_of_mem hmethod
        exact mixinMethodReports_isSome.mpr (hall target rfl i method ⟨_, _, hservice, hi⟩)
  · rename_i hother
    refine iff_of_true rfl fun target' htarget => ?_
    unfold mixinService at htarget
    split at htarget
    · rename_i span name target
      exact absurd rfl (hother span name target)
    · cases htarget

theorem mixinReports_isSome {methods : List Method} {mixins : List Ty} : (result.mixinReports methods mixins).isSome ↔
    ∀ before mixin later target, mixins = before ++ mixin :: later → result.mixinService mixin = some target →
      ∀ i method, result.MethodAt target i method → ∀ other ∈ later.filterMap result.mixinService,
        (result.serviceHasMethod method.name (result.registered.length + 1) other).isSome := by
  induction mixins with
  | nil =>
    refine iff_of_true rfl fun before mixin later target hnil => ?_
    exact absurd hnil.symm (List.append_ne_nil_of_right_ne_nil _ (List.cons_ne_nil _ _))
  | cons mixin later ih =>
    rw [mixinReports_cons_isSome, ih]
    constructor
    · rintro ⟨hmixin, hlater⟩ before mixin' later' target hsplit htarget
      cases before with
      | nil =>
        obtain ⟨rfl, rfl⟩ := List.cons.inj hsplit
        exact hmixin target htarget
      | cons first before =>
        obtain ⟨rfl, rfl⟩ := List.cons.inj hsplit
        exact hlater before mixin' later' target rfl htarget
    · intro hall
      refine ⟨fun target htarget => hall [] mixin later target rfl htarget, ?_⟩
      intro before mixin' later' target hsplit htarget
      exact hall (mixin :: before) mixin' later' target (congrArg (mixin :: ·) hsplit) htarget

theorem validateService_isSome {d : Def} : (result.validateService d).isSome ↔
    ∀ name other, result.Searches d name other → (result.serviceHasMethod name (result.registered.length + 1) other).isSome := by
  unfold validateService
  split
  · rename_i methods mixins hbody
    rw [Option.isSome_map, mixinReports_isSome]
    constructor
    · rintro hall name other ⟨methods', before, mixin, later, target, hbody', htarget, ⟨i, method, hmethod, rfl⟩, hother⟩
      obtain ⟨rfl, rfl⟩ := Body.service.inj (hbody.symm.trans hbody')
      exact hall before mixin later target rfl htarget i method hmethod other hother
    · rintro hall before mixin later target rfl htarget i method hmethod other hother
      exact hall method.name other ⟨methods, before, mixin, later, target, hbody, htarget, ⟨i, method, hmethod, rfl⟩, hother⟩
  · rename_i hnone
    refine iff_of_true rfl ?_
    rintro name other ⟨methods, before, mixin, later, -, hbody, -⟩
    exact absurd hbody (hnone methods _)

/-- The validation returns if every search that it makes ends. -/
theorem servicesReturn_iff (result : ParseResult) : result.ServicesReturn ↔
    ∀ ref d, result.def? ref = some d → ∀ name other, result.Searches d name other → result.SearchEnds name other := by
  unfold ServicesReturn
  simp only [validateService_isSome, ← serviceHasMethod_returns, serviceHasMethod_ends_iff, and_self]

end ParseResult

/-! ## A cycle -/

namespace Sample

/-- `service A { M(R): R; } service B with C {} service C with B {} service D with A, B {}` -/
def mixinCycle : ParseResult :=
  services [service ['A'] [['M']] [], service ['B'] [] [['C']], service ['C'] [] [['B']], service ['D'] [] [['A'], ['B']]]
    (by decide)

end Sample

open Sample

namespace ParseResult

theorem mixinCycle_search (depth : Nat) : mixinCycle.resolved.serviceHasMethod ['M'] depth ⟨0, [2]⟩ = none ∧
    mixinCycle.resolved.serviceHasMethod ['M'] depth ⟨0, [3]⟩ = none := by
  have hmissing : mixinCycle.resolved.ownMethod ['M'] ⟨0, [2]⟩ = none ∧ mixinCycle.resolved.ownMethod ['M'] ⟨0, [3]⟩ = none := by
    decide
  have hmixins : mixinCycle.resolved.mixinServices ⟨0, [2]⟩ = [⟨0, [3]⟩] ∧
      mixinCycle.resolved.mixinServices ⟨0, [3]⟩ = [⟨0, [2]⟩] := by
    decide
  simp only [serviceHasMethod_eq]
  induction depth with
  | zero => exact ⟨rfl, rfl⟩
  | succ depth ih =>
    rw [search_succ, search_succ, hmissing.1, hmissing.2, hmixins.1, hmixins.2]
    simp only [searchAll, ih.1, ih.2, and_self]

/-- No depth is enough for D. -/
theorem servicesReturn_mixinCycle :
    (∀ depth, mixinCycle.resolved.serviceHasMethod ['M'] depth ⟨0, [2]⟩ = none) ∧ ¬mixinCycle.resolved.ServicesReturn := by
  refine ⟨fun depth => (mixinCycle_search depth).1, fun hreturn => ?_⟩
  have hvalidated : ∀ d ∈ mixinCycle.resolved.def? ⟨0, [4]⟩, mixinCycle.resolved.validateService d = none := by
    decide
  cases hd : mixinCycle.resolved.def? ⟨0, [4]⟩ with
  | none =>
    revert hd
    decide
  | some d =>
    have hends := (hreturn ⟨0, [4]⟩ d hd).1
    rw [hvalidated d hd] at hends
    cases hends

end ParseResult

end Bebop.Compiler
