import Bebop.Compiler.Services

/-!
# Bebop — what the methods of a composed service are worth

Of the services that one offers the methods of, the validator compares the names of itself
and a mixin, and of a mixin and what a later one reaches. The other pairs, and the ids of
any two, it takes as they are; a mixin that is reached a second time counts as two.
-/

namespace Bebop.Compiler

namespace ParseResult

variable (result : ParseResult)

/-- The methods that a service offers differ in their names and in their ids, in a result that
is accepted; and where the names differ no conflict is reported. -/
structure ServicesCompose (checks : DecoratorChecks) : Prop where
  names : result.Accepted checks → ∀ ref, result.resolved.OffersDistinct Method.name ref
  ids : result.Accepted checks → ∀ ref, result.resolved.OffersDistinct Method.id ref
  diamonds : ∀ ref d reports, result.resolved.def? ref = some d → result.resolved.validateService d = some reports →
    result.resolved.OffersDistinct Method.name ref → ConflictFree reports

/-- A third service, or the first, compares the names of the methods of two. -/
def Compared (ref service service' : DefRef) : Prop :=
  (service = ref ∧ result.Mixes ref service') ∨
    ∃ before later, result.mixinServices ref = before ++ service :: later ∧
      ∃ other ∈ later, result.Reaches other service'

/-- No mixin that has a method is the service itself, or reached by a later mixin. -/
def MixinsOnce (ref : DefRef) : Prop :=
  ∀ before target later, result.mixinServices ref = before ++ target :: later →
    (∃ i method, result.MethodAt target i method) → target ≠ ref ∧ ∀ other ∈ later, ¬result.Reaches other target

structure ComposedApart (checks : DecoratorChecks) : Prop where
  names : result.Accepted checks → ∀ ref service i method service' i' method',
    result.resolved.Offers ref service i method → result.resolved.Offers ref service' i' method' → service ≠ service' →
      ¬result.resolved.Compared ref service service' → ¬result.resolved.Compared ref service' service →
        method.name ≠ method'.name
  ids : result.Accepted checks → ∀ ref service i method service' i' method',
    result.resolved.Offers ref service i method → result.resolved.Offers ref service' i' method' → service ≠ service' →
      method.id ≠ method'.id
  mixins : ∀ ref d reports, result.resolved.def? ref = some d → result.resolved.validateService d = some reports →
    result.resolved.OffersDistinct Method.name ref → result.resolved.MixinsOnce ref

variable {result}

theorem validateService_conflictFree {ref : DefRef} {d : Def} {reports : List Report} (hd : result.def? ref = some d)
    (h : result.validateService d = some reports) :
    ConflictFree reports ↔
      MixinsApart result (((result.service? ref).map Prod.fst).getD []) (result.mixinServices ref) := by
  unfold validateService at h
  unfold mixinServices service?
  rw [hd, Option.bind_some]
  split at h
  · rename_i methods mixins hbody
    rw [Option.map_some, Option.map_some, Option.getD_some, Option.getD_some]
    obtain ⟨mixinReports, hmixins, rfl⟩ := Option.map_eq_some_iff.mp h
    rw [← mixinReports_conflictFree hmixins, conflictFree_append, conflictFree_append]
    have hcount : ConflictFree (if methods.length > 255 then
        [errorAt 103 d.span "A service cannot have more than 255 methods" none] else []) := by
      split
      · exact fun report hreport => List.mem_singleton.mp hreport ▸ nofun
      · exact nofun
    have htype (method : Method) (type : Ty) (message : String) :
        ConflictFree (result.methodTypeReports method type message) := by
      unfold methodTypeReports
      split <;> intro report hreport
      all_goals first
        | cases hreport; done
        | (rw [List.mem_singleton.mp hreport]; exact nofun)
    refine ⟨fun hfree => hfree.1.2, fun hfree => ⟨⟨hcount, hfree⟩, fun report hreport => ?_⟩⟩
    obtain ⟨method, -, hreport⟩ := List.mem_flatMap.mp hreport
    rcases List.mem_append.mp hreport with hreport | hreport
    · exact htype _ _ _ report hreport
    · exact htype _ _ _ report hreport
  · cases h
    refine ⟨fun _ before target later heq => ?_, fun _ => nofun⟩
    exact absurd (congrArg List.length heq) (by rw [Option.map_none, List.length_append]; exact nofun)

theorem service?_resolved {ref : DefRef} {methods : List Method} {mixins : List Ty}
    (h : result.resolved.service? ref = some (methods, mixins)) :
    ∃ d read mixins', result.def? ref = some d ∧ d.body = .service read mixins' ∧
      methods.map Method.name = read.map Method.name ∧ methods.map Method.id = read.map Method.id := by
  obtain ⟨d, hd, hbody⟩ := Option.bind_eq_some_iff.mp h
  unfold resolved at hd
  rw [def?_relink] at hd
  obtain ⟨old, hold, rfl⟩ := Option.map_eq_some_iff.mp hd
  rw [Def.body_relink] at hbody
  cases hread : old.body with
  | service read mixins' =>
    rw [hread, Body.relink] at hbody
    cases hbody
    refine ⟨old, read, mixins', hold, hread, ?_, ?_⟩
    · rw [List.map_map]
      rfl
    · rw [List.map_map]
      rfl
  | enum _ _ => rw [hread] at hbody; cases hbody
  | struct _ _ => rw [hread] at hbody; cases hbody
  | message _ => rw [hread] at hbody; cases hbody
  | union _ => rw [hread] at hbody; cases hbody
  | const _ _ => rw [hread] at hbody; cases hbody
  | decorator => rw [hread] at hbody; cases hbody

theorem index_unique_of_nodup {α : Type} {key : Method → α} {methods : List Method} (h : (methods.map key).Nodup)
    {i i' : Nat} {method method' : Method} (hi : methods[i]? = some method) (hi' : methods[i']? = some method')
    (hkey : key method = key method') : i = i' := by
  obtain ⟨hlt, rfl⟩ := List.getElem?_eq_some_iff.mp hi
  obtain ⟨hlt', rfl⟩ := List.getElem?_eq_some_iff.mp hi'
  have hmap : i < (methods.map key).length := by rwa [List.length_map]
  have hmap' : i' < (methods.map key).length := by rwa [List.length_map]
  have heq : (methods.map key)[i] = (methods.map key)[i'] := by rw [List.getElem_map, List.getElem_map, hkey]
  exact h.getElem_inj_iff.mp heq

theorem name_ne_of_compared {ref service service' : DefRef} {i i' : Nat} {method method' : Method}
    (h : MixinsApart result (((result.service? ref).map Prod.fst).getD []) (result.mixinServices ref))
    (hcompared : result.Compared ref service service') (hmethod : result.MethodAt service i method)
    (hmethod' : result.MethodAt service' i' method') : method.name ≠ method'.name := by
  rcases hcompared with ⟨rfl, hmixes⟩ | ⟨before, later, hsplit, other, hother, hreaches⟩
  · obtain ⟨before, later, hsplit⟩ := List.append_of_mem hmixes
    obtain ⟨methods, mixins, hservice, hi⟩ := hmethod
    have hown := (h before service' later hsplit i' method' hmethod').1
    rw [hservice] at hown
    exact hown method (List.mem_of_getElem? hi)
  · have hlater := (h before service later hsplit i method hmethod).2 other hother service' i' method' ⟨hreaches, hmethod'⟩
    exact hlater.symm

theorem mixinsApart_iff {ref : DefRef} (h : result.OffersDistinct Method.name ref) :
    MixinsApart result (((result.service? ref).map Prod.fst).getD []) (result.mixinServices ref) ↔
      result.MixinsOnce ref := by
  constructor
  · rintro hapart before target later hsplit ⟨i, method, hmethod⟩
    obtain ⟨hown, hlater⟩ := hapart before target later hsplit i method hmethod
    constructor
    · rintro rfl
      obtain ⟨methods, mixins, hservice, hi⟩ := hmethod
      rw [hservice] at hown
      exact hown method (List.mem_of_getElem? hi) rfl
    · intro other hother hreaches
      exact hlater other hother target i method ⟨hreaches, hmethod⟩ rfl
  · intro honce before target later hsplit i method hmethod
    obtain ⟨hne, hreaches⟩ := honce before target later hsplit ⟨i, method, hmethod⟩
    have hmem : target ∈ result.mixinServices ref := by
      rw [hsplit]
      exact List.mem_append_right _ List.mem_cons_self
    have hoffers : result.Offers ref target i method := ⟨.single hmem, hmethod⟩
    constructor
    · intro own hown heq
      cases hservice : result.service? ref with
      | none =>
        rw [hservice] at hown
        cases hown
      | some service =>
        obtain ⟨methods, mixins⟩ := service
        rw [hservice, Option.map_some, Option.getD_some] at hown
        obtain ⟨k, hk⟩ := List.getElem?_of_mem hown
        exact hne (h target i method ref k own hoffers ⟨.refl, methods, mixins, hservice, hk⟩ heq.symm).1
    · intro other hother service i' method' hoffers' heq
      have hmem' : other ∈ result.mixinServices ref := by
        rw [hsplit]
        exact List.mem_append_right _ (List.mem_cons_of_mem _ hother)
      have hsame := h target i method service i' method' hoffers ⟨.head hmem' hoffers'.1, hoffers'.2⟩ heq.symm
      rw [← hsame.1] at hoffers'
      exact hreaches other hother hoffers'.1

/-- Exactly if the uncompared methods differ, and no mixin is reached twice. -/
theorem services_compose_iff (checks : DecoratorChecks) (result : ParseResult) (hkeeps : result.KeepsErrors)
    (hparsed : ∀ ref d, result.def? ref = some d → d.MethodsParsed) :
    result.ServicesCompose checks ↔ result.ComposedApart checks := by
  -- the parser has seen to the methods of one service
  have hsame {α : Type} {key : Method → α} {service : DefRef} {i i' : Nat}
      {method method' : Method} (hmethod : result.resolved.MethodAt service i method)
      (hmethod' : result.resolved.MethodAt service i' method') (heq : key method = key method')
      (hnodup : ∀ methods mixins, result.resolved.service? service = some (methods, mixins) →
        (methods.map key).Nodup) : i = i' := by
    obtain ⟨methods, mixins, hservice, hi⟩ := hmethod
    obtain ⟨methods', mixins', hservice', hi'⟩ := hmethod'
    rw [hservice] at hservice'
    cases hservice'
    exact index_unique_of_nodup (hnodup methods mixins hservice) hi hi' heq
  have hdistinct {service : DefRef} (methods : List Method) (mixins : List Ty)
      (hservice : result.resolved.service? service = some (methods, mixins)) :
      (methods.map Method.name).Nodup ∧ (methods.map Method.id).Nodup := by
    obtain ⟨d, read, mixins', hd, hbody, hnames, hids⟩ := service?_resolved hservice
    have hread := (hparsed service d hd).distinct hbody
    rw [hnames, hids]
    exact ⟨hread.names, hread.ids⟩
  constructor
  · intro h
    constructor
    · intro haccepted ref service i method service' i' method' hoffers hoffers' hne _ _ heq
      exact hne (h.names haccepted ref service i method service' i' method' hoffers hoffers' heq).1
    · intro haccepted ref service i method service' i' method' hoffers hoffers' hne heq
      exact hne (h.ids haccepted ref service i method service' i' method' hoffers hoffers' heq).1
    · intro ref d reports hd hreports hnames
      have hfree := h.diamonds ref d reports hd hreports hnames
      exact (mixinsApart_iff hnames).mp ((validateService_conflictFree hd hreports).mp hfree)
  · intro h
    constructor
    · intro haccepted ref service i method service' i' method' hoffers hoffers' heq
      by_cases hne : service = service'
      · subst hne
        exact ⟨rfl, hsame hoffers.2 hoffers'.2 heq fun methods mixins hs => (hdistinct methods mixins hs).1⟩
      exfalso
      -- what is compared differs, since nothing is reported
      have hcompared {a b : DefRef} {j k : Nat} {m m' : Method} (hm : result.resolved.MethodAt a j m)
          (hm' : result.resolved.MethodAt b k m') (hname : m.name = m'.name) : ¬result.resolved.Compared ref a b := by
        intro hcompared
        have hservice : ∃ d, result.resolved.def? ref = some d := by
          rcases hcompared with ⟨rfl, -⟩ | ⟨before, later, hsplit, -⟩
          · obtain ⟨methods, mixins, hservice, -⟩ := hm
            obtain ⟨d, hd, -⟩ := Option.bind_eq_some_iff.mp hservice
            exact ⟨d, hd⟩
          · cases hd : result.resolved.def? ref with
            | some d => exact ⟨d, rfl⟩
            | none =>
              unfold mixinServices service? at hsplit
              rw [hd] at hsplit
              exact absurd (congrArg List.length hsplit) (by rw [List.length_append]; exact nofun)
        obtain ⟨d, hd⟩ := hservice
        have hregistered : ref ∈ result.registered := by
          rw [← registered_relink result result.linkType result.linkDecorator]
          exact mem_registered.mpr ⟨d, hd⟩
        have hsilent := (next_passes_silent haccepted hkeeps).1 ref hregistered d hd
        exact name_ne_of_compared ((validateService_conflictFree hd hsilent).mp nofun) hcompared hm hm' hname
      exact h.names haccepted ref service i method service' i' method' hoffers hoffers' hne
        (hcompared hoffers.2 hoffers'.2 heq) (hcompared hoffers'.2 hoffers.2 heq.symm) heq
    · intro haccepted ref service i method service' i' method' hoffers hoffers' heq
      by_cases hne : service = service'
      · subst hne
        exact ⟨rfl, hsame hoffers.2 hoffers'.2 heq fun methods mixins hs => (hdistinct methods mixins hs).2⟩
      · exact absurd heq (h.ids haccepted ref service i method service' i' method' hoffers hoffers' hne)
    · intro ref d reports hd hreports hnames
      refine (validateService_conflictFree hd hreports).mpr ((mixinsApart_iff hnames).mpr ?_)
      exact h.mixins ref d reports hd hreports hnames

end ParseResult

/-! ## Services that are accepted or not -/

namespace Sample

/-- `service A { M(R): R; } service B with A {} service C with B { M(R): R; }` -/
def mixinOfMixin : ParseResult :=
  services [service ['A'] [['M']] [], service ['B'] [] [['A']], service ['C'] [['M']] [['B']]] (by decide)

/-- `service a { Z1X(R): R; } service b with a { ohp(R): R; }` -/
def sameIds : ParseResult :=
  services [service ['a'] [['Z', '1', 'X']] [], service ['b'] [['o', 'h', 'p']] [['a']]] (by decide)

/-- `service A { M(R): R; } service B with A {} service C with A, B {}` -/
def diamond : ParseResult :=
  services [service ['A'] [['M']] [], service ['B'] [] [['A']], service ['C'] [] [['A'], ['B']]] (by decide)

end Sample

open Sample

namespace ParseResult

theorem methodAt_of_registered {result : ParseResult} {p : DefRef → Nat → Method → Prop}
    (h : ∀ ref ∈ result.registered, ∀ x ∈ result.service? ref, ∀ y ∈ x.1.zipIdx, p ref y.2 y.1) {ref : DefRef} {i : Nat}
    {method : Method} (hmethod : result.MethodAt ref i method) : p ref i method := by
  obtain ⟨methods, mixins, hservice, hi⟩ := hmethod
  obtain ⟨d, hd, -⟩ := Option.bind_eq_some_iff.mp hservice
  exact h ref (mem_registered.mpr ⟨d, hd⟩) (methods, mixins) hservice (method, i) (List.mem_zipIdx_iff_getElem?.mpr hi)

theorem services_compose_oneMixin : oneMixin.ServicesCompose (fun _ => []) := by
  have honly {ref : DefRef} {i : Nat} {method : Method} (h : oneMixin.resolved.MethodAt ref i method) :
      ref = ⟨0, [1]⟩ := by
    refine methodAt_of_registered (p := fun ref _ _ => ref = ⟨0, [1]⟩) ?_ h
    decide
  refine (services_compose_iff (fun _ => []) oneMixin ⟨by decide, by decide⟩ ?_).mpr ⟨?_, ?_, ?_⟩
  · refine forall_def fun ref href d hd => ?_
    have hregistered : oneMixin.registered = [⟨0, [0]⟩, ⟨0, [1]⟩, ⟨0, [2]⟩] := by decide
    rw [hregistered] at href
    rcases List.mem_cons.mp href with rfl | href
    · cases hd
      exact methodsParsed_record
    · rcases List.mem_pair.mp href with rfl | rfl
      · cases hd
        exact methodsParsed_service (by decide)
      · cases hd
        exact methodsParsed_service (by decide)
  · intro _ ref service i method service' i' method' hoffers hoffers' hne
    exact absurd ((honly hoffers.2).trans (honly hoffers'.2).symm) hne
  · intro _ ref service i method service' i' method' hoffers hoffers' hne
    exact absurd ((honly hoffers.2).trans (honly hoffers'.2).symm) hne
  · rintro ref d reports hd - - before target later hsplit ⟨i, method, hmethod⟩
    have hregistered : ref ∈ oneMixin.resolved.registered := mem_registered.mpr ⟨d, hd⟩
    have hmixins := (by decide : ∀ ref ∈ oneMixin.resolved.registered,
      oneMixin.resolved.mixinServices ref = [] ∨
        ref = ⟨0, [2]⟩ ∧ oneMixin.resolved.mixinServices ref = [⟨0, [1]⟩]) ref hregistered
    rw [honly hmethod] at hsplit ⊢
    rcases hmixins with hnone | ⟨rfl, hone⟩
    · rw [hnone] at hsplit
      exact absurd (congrArg List.length hsplit) (by rw [List.length_append]; exact nofun)
    · rw [hone] at hsplit
      have hlength := congrArg List.length hsplit
      rw [List.length_append, List.length_cons, List.length_cons, List.length_nil] at hlength
      refine ⟨by decide, ?_⟩
      rw [List.length_eq_zero_iff.mp (show later.length = 0 by omega)]
      exact nofun

/-- A method of the mixin of a mixin has the name of an own one; the ids of two methods are the
same; and a service is not accepted for a mixin of its mixin. -/
theorem services_compose_fails :
    (mixinOfMixin.Accepted (fun _ => []) ∧ ¬mixinOfMixin.ServicesCompose (fun _ => [])) ∧
    (sameIds.Accepted (fun _ => []) ∧ ¬sameIds.ServicesCompose (fun _ => [])) ∧
      diamond.resolved.OffersDistinct Method.name ⟨0, [3]⟩ ∧ ¬diamond.Accepted (fun _ => []) ∧
        ¬diamond.ServicesCompose (fun _ => []) := by
  have hnames : diamond.resolved.OffersDistinct Method.name ⟨0, [3]⟩ := by
    have honly {ref : DefRef} {i : Nat} {method : Method} (h : diamond.resolved.MethodAt ref i method) :
        ref = ⟨0, [1]⟩ ∧ i = 0 := by
      refine methodAt_of_registered (p := fun ref i _ => ref = ⟨0, [1]⟩ ∧ i = 0) ?_ h
      decide
    intro service i method service' i' method' hoffers hoffers' _
    obtain ⟨rfl, rfl⟩ := honly hoffers.2
    obtain ⟨rfl, rfl⟩ := honly hoffers'.2
    exact ⟨rfl, rfl⟩
  refine ⟨⟨by decide, fun h => ?_⟩, ⟨by decide, fun h => ?_⟩, hnames, by decide, fun h => ?_⟩
  · have hto : mixinOfMixin.resolved.Reaches ⟨0, [3]⟩ ⟨0, [1]⟩ :=
      .head (b := ⟨0, [2]⟩) (by unfold Mixes; decide) (.single (by unfold Mixes; decide))
    have hsame := h.names (by decide) ⟨0, [3]⟩ ⟨0, [1]⟩ 0 _ ⟨0, [3]⟩ 0 _ ⟨hto, _, _, rfl, rfl⟩
      ⟨.refl, _, _, rfl, rfl⟩ (by decide)
    exact absurd hsame.1 (by decide)
  · have hto : sameIds.resolved.Reaches ⟨0, [2]⟩ ⟨0, [1]⟩ := .single (by unfold Mixes; decide)
    have hsame := h.ids (by decide) ⟨0, [2]⟩ ⟨0, [1]⟩ 0 _ ⟨0, [2]⟩ 0 _ ⟨hto, _, _, rfl, rfl⟩
      ⟨.refl, _, _, rfl, rfl⟩ (by decide)
    exact absurd hsame.1 (by decide)
  · have hreports : ∃ d reports, diamond.resolved.def? ⟨0, [3]⟩ = some d ∧
        diamond.resolved.validateService d = some reports ∧ ¬ConflictFree reports := by
      refine ⟨_, _, rfl, rfl, ?_⟩
      unfold ConflictFree
      decide
    obtain ⟨d, reports, hd, hreports, hconflict⟩ := hreports
    exact hconflict (h.diamonds ⟨0, [3]⟩ d reports hd hreports hnames)

end ParseResult

end Bebop.Compiler
