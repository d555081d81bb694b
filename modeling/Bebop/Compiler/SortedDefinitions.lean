import Bebop.Compiler.CollectedNames
import Bebop.Compiler.References
import Bebop.Compiler.Register

/-!
# Bebop — what the order of the definitions is worth

The sort is Kahn's. Its edges are the dependencies of the pointers if each name that is
collected for a pointer is found again under the definition it was collected for
(`NamesLeadBack`).
-/

namespace Bebop.Compiler

/-! ## What the order is for -/

namespace ParseResult

variable (result : ParseResult)

/-- A pointer in the types of one leads to the other, or it is an inline branch. -/
def DependsOn (ref dep : DefRef) : Prop :=
  ∃ d, result.def? ref = some d ∧
    ((∃ r ∈ d.references, r.resolved = some dep) ∨ ∃ x ∈ d.ownBranches, dep = ⟨ref.schema, ref.path ++ [x.1]⟩)

/-- The second definition has to come after the first. -/
def Precedes (dep ref : DefRef) : Prop := result.DependsOn ref dep ∧ result.isExempt ref dep = false

/-- The type references are resolved, and decorators only to decorators. -/
structure Linked : Prop where
  types : ∀ ref d, result.def? ref = some d → ∀ r ∈ d.references,
    ∃ target ∈ result.registered, r.resolved = some target
  decorators : ∀ ref d, result.def? ref = some d → ∀ x ∈ d.decoratorChains.flatten,
    ∀ target, x.resolved = some target → (result.def? target).map Def.kind = some .decorator

/-- All definitions after those they depend on; and a reported cycle is there. -/
structure SortSound : Prop where
  perm : ∀ order, result.toposort = .sorted order → order.Perm result.registered
  after : ∀ order, result.toposort = .sorted order → ∀ before ref later, order = before ++ ref :: later →
    ∀ dep, result.Precedes dep ref → dep ∈ before
  cycle : ∀ on path, result.toposort = .cyclic on path → ∃ ref, Relation.TransGen result.Precedes ref ref

/-- A name collected for a definition makes an edge from it, unless exempt. -/
def NamesLeadBack : Prop :=
  ∀ ref d, result.def? ref = some d → ∀ name target, (name, target) ∈ result.recorded ref d →
    result.edgeFrom ref name = (some target).filter fun target => !result.isExempt ref target

variable {result}

theorem mem_recorded {ref target : DefRef} {d : Def} {name : Text} (hd : result.def? ref = some d)
    (h : (name, target) ∈ result.recorded ref d) :
    result.DependsOn ref target ∨ ∃ x ∈ d.decoratorChains.flatten, x.resolved = some target := by
  have hpoints {resolved : Option DefRef}
      (h : (resolved.bind fun target => (result.fqn target).map fun fqn => (fqn, target)) = some (name, target)) :
      resolved = some target := by
    obtain ⟨target', hresolved, htarget⟩ := Option.bind_eq_some_iff.mp h
    obtain ⟨fqn, -, heq⟩ := Option.map_eq_some_iff.mp htarget
    cases heq
    exact hresolved
  rcases List.mem_append.mp h with h | h
  · refine .inl ⟨d, hd, ?_⟩
    rcases List.mem_append.mp h with h | h
    · obtain ⟨r, hr, heq⟩ := List.mem_filterMap.mp h
      exact .inl ⟨r, hr, hpoints heq⟩
    · obtain ⟨x, hx, heq⟩ := List.mem_map.mp h
      cases heq
      exact .inr ⟨x, hx, rfl⟩
  · obtain ⟨x, hx, heq⟩ := List.mem_filterMap.mp h
    exact .inr ⟨x, hx, hpoints heq⟩

theorem DependsOn.recorded {ref dep : DefRef} (h : result.DependsOn ref dep) (hdep : dep ∈ result.registered) :
    ∃ d name, result.def? ref = some d ∧ (name, dep) ∈ result.recorded ref d := by
  obtain ⟨d, hd, h⟩ := h
  rcases h with ⟨r, hr, hresolved⟩ | ⟨x, hx, rfl⟩
  · obtain ⟨target, htarget⟩ := mem_registered.mp hdep
    obtain ⟨fqn, hfqn⟩ : ∃ fqn, result.fqn dep = some fqn := by
      obtain ⟨schema, hschema, hat⟩ := Option.bind_eq_some_iff.mp htarget
      refine Option.isSome_iff_exists.mp ?_
      rw [ParseResult.fqn, hschema, Option.bind_some, Schema.fqn, fqnAt_isSome, hat, Option.isSome_some]
    refine ⟨d, fqn, hd, List.mem_append_left _ (List.mem_append_left _ (List.mem_filterMap.mpr ⟨r, hr, ?_⟩))⟩
    rw [hresolved, Option.bind_some, hfqn, Option.map_some]
  · exact ⟨d, x.2.name, hd, List.mem_append_left _ (List.mem_append_right _ (List.mem_map.mpr ⟨x, hx, rfl⟩))⟩

theorem Linked.mem_registered (hlinked : result.Linked) {ref dep : DefRef} (h : result.DependsOn ref dep) :
    dep ∈ result.registered := by
  obtain ⟨d, hd, ⟨r, hr, hresolved⟩ | ⟨⟨k, nested⟩, hx, rfl⟩⟩ := h
  · obtain ⟨target, htarget, heq⟩ := hlinked.types ref d hd r hr
    rw [hresolved, Option.some.injEq] at heq
    rwa [heq]
  · unfold Def.ownBranches at hx
    split at hx
    · obtain ⟨branch, -, hx⟩ := List.mem_filterMap.mp hx
      obtain ⟨k', -, hx⟩ := Option.bind_eq_some_iff.mp hx
      obtain ⟨nested', hnested, heq⟩ := Option.map_eq_some_iff.mp hx
      cases heq
      obtain ⟨schema, hschema, hat⟩ := Option.bind_eq_some_iff.mp hd
      refine ParseResult.mem_registered.mpr ⟨nested, ?_⟩
      rw [def?_eq hschema, definitionAt_append_singleton hat, hnested]
    · cases hx

theorem index_unique {i k : Nat} {ref : DefRef} (hi : result.registered[i]? = some ref)
    (hk : result.registered[k]? = some ref) : i = k := by
  obtain ⟨hlt, hi⟩ := List.getElem?_eq_some_iff.mp hi
  obtain ⟨hlt', hk⟩ := List.getElem?_eq_some_iff.mp hk
  exact (result.nodup_registered.getElem_inj_iff).mp (hi.trans hk.symm)

theorem NamesLeadBack.mem_edges (hback : result.NamesLeadBack) {edges : List (Nat × Nat)}
    (h : result.dependencyEdges = some edges) {k i : Nat} {ref dep : DefRef} (hi : result.registered[i]? = some ref)
    (hk : result.registered[k]? = some dep) :
    (k, i) ∈ edges ↔
      result.isExempt ref dep = false ∧ ∃ d name, result.def? ref = some d ∧ (name, dep) ∈ result.recorded ref d := by
  rw [mem_dependencyEdges h]
  constructor
  · rintro ⟨ref', d, name, target, dep', hi', hd, hname, hindex, hk', hexempt⟩
    rw [hi, Option.some.injEq] at hi'
    rw [hk, Option.some.injEq] at hk'
    subst hi' hk'
    have hedge := hback ref d hd name target hname
    rw [edgeFrom_eq_some.mpr ⟨k, hindex, hk, hexempt⟩, eq_comm, Option.filter_eq_some_iff, Option.some.injEq] at hedge
    rw [hedge.1] at hname
    exact ⟨hexempt, d, name, hd, hname⟩
  · rintro ⟨hexempt, d, name, hd, hname⟩
    have hedge := hback ref d hd name dep hname
    rw [Option.filter_some, hexempt, Bool.not_false, if_pos rfl] at hedge
    obtain ⟨k', hindex, hk', -⟩ := edgeFrom_eq_some.mp hedge
    rw [index_unique hk' hk] at hindex
    exact ⟨ref, d, name, dep, dep, hi, hd, hname, hindex, hk, hexempt⟩

theorem edges_lt {edges : List (Nat × Nat)} (h : result.dependencyEdges = some edges) :
    ∀ e ∈ edges, e.1 < result.registered.length ∧ e.2 < result.registered.length := by
  rintro ⟨k, i⟩ he
  obtain ⟨ref, d, name, target, dep, hi, -, -, -, hk, -⟩ := (mem_dependencyEdges h).mp he
  exact ⟨(List.getElem?_eq_some_iff.mp hk).1, (List.getElem?_eq_some_iff.mp hi).1⟩

theorem sorted_of_toposort {order : List DefRef} (h : result.toposort = .sorted order) :
    ∃ edges, result.dependencyEdges = some edges ∧
      (Kahn.sort result.registered.length edges).sorted.length = result.registered.length ∧
      order = (Kahn.sort result.registered.length edges).sorted.filterMap (result.registered[·]?) := by
  unfold toposort at h
  split at h
  · cases h
  · rename_i edges hedges
    dsimp only at h
    split at h
    · rename_i hlength
      cases h
      exact ⟨edges, hedges, hlength, rfl⟩
    · split at h
      · cases h
      · split at h <;> cases h

theorem left_of_toposort {on : DefRef} {path : Text} (h : result.toposort = .cyclic on path) :
    ∃ edges i, result.dependencyEdges = some edges ∧ i < result.registered.length ∧
      0 < (Kahn.sort result.registered.length edges).deg i := by
  unfold toposort at h
  split at h
  · cases h
  · rename_i edges hedges
    dsimp only at h
    split at h
    · cases h
    · split at h
      · cases h
      · rename_i i hi
        have hdeg := List.find?_some hi
        rw [decide_eq_true_iff] at hdeg
        exact ⟨edges, i, hedges, List.mem_range.mp (List.mem_of_find?_eq_some hi), hdeg⟩

theorem recorded_decorator {ref : DefRef} {d : Def} (hd : result.def? ref = some d) (hkind : d.kind = .decorator) :
    result.recorded ref d = [] := by
  obtain ⟨schema, -, hat⟩ := Option.bind_eq_some_iff.mp hd
  have hchain : d.decorators = [] := (schema.parsed ref.path d hat).decorators hkind
  have hbody : d.body = .decorator := by
    unfold Def.kind Body.kind at hkind
    split at hkind <;> first | assumption | cases hkind
  unfold recorded Def.references Def.ownBranches Def.decoratorChains
  rw [hbody, hchain]
  rfl

theorem NamesLeadBack.precedes (hback : result.NamesLeadBack) (hlinked : result.Linked) {edges : List (Nat × Nat)}
    (h : result.dependencyEdges = some edges) {j k i : Nat} {ref dep : DefRef} (hi : result.registered[i]? = some ref)
    (hk : result.registered[k]? = some dep) (hinto : (j, k) ∈ edges) (hedge : (k, i) ∈ edges) :
    result.Precedes dep ref := by
  obtain ⟨hexempt, d, name, hd, hname⟩ := (hback.mem_edges h hi hk).mp hedge
  refine ⟨?_, hexempt⟩
  rcases mem_recorded hd hname with hdepends | ⟨x, hx, hresolved⟩
  · exact hdepends
  · exfalso
    obtain ⟨e, he, hkind⟩ := Option.map_eq_some_iff.mp (hlinked.decorators ref d hd x hx dep hresolved)
    obtain ⟨dep', e', name', target, -, hk', he', hname', -⟩ := (mem_dependencyEdges h).mp hinto
    rw [hk, Option.some.injEq] at hk'
    subst hk'
    rw [he, Option.some.injEq] at he'
    subst he'
    rw [recorded_decorator he hkind] at hname'
    cases hname'

theorem filterMap_range {α : Type} (l : List α) : (List.range l.length).filterMap (l[·]?) = l := by
  induction l using List.reverseRecOn with
  | nil => rfl
  | append_singleton l a ih =>
    rw [List.length_append, List.length_singleton, List.range_succ, List.filterMap_append]
    refine congrArg₂ _ ?_ ?_
    · refine Eq.trans (List.filterMap_congr fun i hi => ?_) ih
      exact List.getElem?_append_left (List.mem_range.mp hi)
    · rw [List.filterMap_cons, List.getElem?_concat_length]
      rfl

theorem transGen_of_walk {α β : Type} {r : α → α → Prop} {s : β → β → Prop} {f : α → β}
    (hstep : ∀ a b c, r a b → r b c → s (f b) (f c)) {before a b : α} (hbefore : r before a)
    (h : Relation.TransGen r a b) : Relation.TransGen s (f a) (f b) := by
  induction h with
  | single hab => exact .single (hstep _ _ _ hbefore hab)
  | @tail b c hwalk hbc ih =>
    obtain ⟨b', -, hb⟩ := Relation.TransGen.tail'_iff.mp hwalk
    exact ih.tail (hstep _ _ _ hb hbc)

theorem perm_of_toposort {order : List DefRef} (horder : result.toposort = .sorted order) :
    order.Perm result.registered := by
  obtain ⟨edges, hedges, hlength, rfl⟩ := sorted_of_toposort horder
  have hperm := (Kahn.sorted_perm (edges_lt hedges) hlength).filterMap (result.registered[·]?)
  rwa [filterMap_range] at hperm

theorem toposort_of_edges {edges : List (Nat × Nat)} (hedges : result.dependencyEdges = some edges) :
    result.toposort ≠ .failed := by
  have hlt := edges_lt hedges
  unfold toposort
  rw [hedges]
  dsimp only
  split
  · exact nofun
  · rename_i hlength
    obtain ⟨v, hv, hleft⟩ : ∃ v < result.registered.length,
        v ∉ (Kahn.sort result.registered.length edges).sorted := by
      by_contra hall
      push Not at hall
      have hsub : List.range result.registered.length ⊆ (Kahn.sort result.registered.length edges).sorted :=
        fun v hv => hall v (List.mem_range.mp hv)
      have hle := (List.nodup_range.subperm hsub).length_le
      have hge := (Kahn.sound_sort hlt).length_le
      rw [List.length_range] at hle
      rw [List.length_append] at hge
      omega
    have hdeg : (Kahn.sort result.registered.length edges).deg v > 0 := by
      refine Nat.pos_of_ne_zero fun hzero => hleft ?_
      have hmem := ((Kahn.sound_sort hlt).ready v hv).mpr hzero
      rwa [Kahn.queue_sort hlt, List.append_nil] at hmem
    cases hfind : (List.range result.registered.length).find? fun i =>
        (Kahn.sort result.registered.length edges).deg i > 0 with
    | none => exact absurd (decide_eq_true hdeg) (List.find?_eq_none.mp hfind v (List.mem_range.mpr hv))
    | some i =>
      dsimp only
      rw [List.getElem?_eq_getElem (List.mem_range.mp (List.mem_of_find?_eq_some hfind))]
      exact nofun

/-- The order is sound if the names lead back to where the pointers lead. -/
theorem sort_sound (result : ParseResult) (hlinked : result.Linked) (hback : result.NamesLeadBack) :
    result.SortSound where
  perm order horder := perm_of_toposort horder
  after order horder before ref later hsplit dep hprecedes := by
    obtain ⟨edges, hedges, hlength, rfl⟩ := sorted_of_toposort horder
    obtain ⟨first, rest, hsorted, rfl, hrest⟩ := List.filterMap_eq_append_iff.mp hsplit
    obtain ⟨skipped, i, rest, rfl, hskipped, hi, -⟩ := List.filterMap_eq_cons_iff.mp hrest
    obtain ⟨k, hlt, hk⟩ := List.getElem_of_mem (hlinked.mem_registered hprecedes.1)
    have hk : result.registered[k]? = some dep := List.getElem?_eq_some_iff.mpr ⟨hlt, hk⟩
    have hedge : (k, i) ∈ edges := by
      obtain ⟨d, name, hd, hname⟩ := hprecedes.1.recorded (hlinked.mem_registered hprecedes.1)
      exact (hback.mem_edges hedges hi hk).mpr ⟨hprecedes.2, d, name, hd, hname⟩
    have hbefore : k ∈ first ++ skipped :=
      (Kahn.sound_sort (edges_lt hedges)).before (first ++ skipped) i rest
        (by rw [hsorted, List.append_assoc]) (k, i) hedge rfl
    rcases List.mem_append.mp hbefore with hmem | hmem
    · exact List.mem_filterMap.mpr ⟨k, hmem, hk⟩
    · rw [hskipped k hmem] at hk
      cases hk
  cycle on path hcyclic := by
    obtain ⟨edges, i, hedges, hi, hdeg⟩ := left_of_toposort hcyclic
    have hleft : i ∉ (Kahn.sort result.registered.length edges).sorted := by
      intro hmem
      have hzero := ((Kahn.sound_sort (edges_lt hedges)).ready i hi).mp (List.mem_append_left _ hmem)
      omega
    obtain ⟨u, hcycle⟩ := Kahn.exists_cycle (edges_lt hedges) hi hleft
    let name (i : Nat) : DefRef := (result.registered[i]?).getD ⟨0, []⟩
    have hname {k : Nat} (hlt : k < result.registered.length) : result.registered[k]? = some (name k) := by
      rw [List.getElem?_eq_getElem hlt]
      exact congrArg some (by simp only [name, List.getElem?_eq_getElem hlt, Option.getD_some])
    obtain ⟨last, -, hlast⟩ := Relation.TransGen.tail'_iff.mp hcycle
    refine ⟨name u, transGen_of_walk (fun j k i hjk hki => ?_) hlast hcycle⟩
    have hlt := edges_lt hedges _ hki
    exact hback.precedes hlinked hedges (hname hlt.2) (hname hlt.1) hjk hki

theorem types_resolved (hsilent : ∀ ref ∈ result.registered, result.resolveDef ref = []) {ref : DefRef} {d : Def}
    (hd : result.resolved.def? ref = some d) {r : Reference} (hr : r ∈ d.references) :
    ∃ target ∈ result.resolved.registered, r.resolved = some target := by
  unfold resolved at hd ⊢
  rw [def?_relink] at hd
  obtain ⟨old, hold, rfl⟩ := Option.map_eq_some_iff.mp hd
  obtain ⟨hlinks, hmeans⟩ := linkedReferences_silent hold (hsilent ref (mem_registered.mpr ⟨old, hold⟩))
  unfold linkedReferences resolved at hlinks
  rw [def?_relink, hold, Option.map_some, Option.map_some, Option.getD_some] at hlinks
  rw [hlinks] at hr
  obtain ⟨r', hr', rfl⟩ := List.mem_map.mp hr
  obtain ⟨target, hmeans⟩ := hmeans r' hr'
  refine ⟨target, ?_, congrArg Prod.fst hmeans.1⟩
  rw [registered_relink]
  exact mem_registered.mpr (def?_of_resolveType (congrArg Prod.fst hmeans.1))

theorem kind_of_resolveDecoratorName {s : Nat} {name : Text} {found : DefRef} {other : Option DefRef}
    (h : result.resolveDecoratorName s name = (some found, other)) :
    (result.resolved.def? found).map Def.kind = some .decorator := by
  unfold resolveDecoratorName at h
  split at h
  · split at h
    · rename_i hkind
      cases h
      unfold resolved
      rw [def?_relink, Option.map_map]
      obtain ⟨e, he, hkind⟩ := Option.map_eq_some_iff.mp hkind
      rw [he, Option.map_some, Function.comp_apply, Def.kind_relink, hkind]
    · cases h
  · cases h

theorem linked_resolved (hsilent : ∀ ref ∈ result.registered, result.resolveDef ref = [])
    (hunset : ∀ ref d, result.def? ref = some d → ∀ x ∈ d.decoratorChains.flatten, x.resolved = none) :
    result.resolved.Linked := by
  constructor
  · intro ref d hd r hr
    exact types_resolved hsilent hd hr
  · intro ref d hd x hx target htarget
    unfold resolved at hd
    rw [def?_relink] at hd
    obtain ⟨old, hold, rfl⟩ := Option.map_eq_some_iff.mp hd
    rw [Def.decoratorChains_relink, ← List.map_flatten] at hx
    obtain ⟨x', hx', rfl⟩ := List.mem_map.mp hx
    have hnone := hunset ref old hold x' hx'
    unfold linkDecorator at htarget
    split at htarget
    · rename_i found hname
      dsimp only at htarget
      cases htarget
      exact kind_of_resolveDecoratorName hname
    · rw [hnone] at htarget
      cases htarget

end ParseResult

/-! ## Names that lead elsewhere -/

namespace Sample

/-- `struct S {} struct B { f: S; }` -/
def twoStructs : ParseResult where
  schemas := [.ofDefinitions none [] [scope ['S'] [], record ['B'] [['S']] []] (by decide)]

/-- `struct X { struct S {} } struct B { f: S; } struct S { f: T; } struct T {}` -/
def lostDependency : ParseResult where
  schemas :=
    [.ofDefinitions none [] [scope ['X'] [scope ['S'] []], record ['B'] [['S']] [], record ['S'] [['T']] [],
      scope ['T'] []] (by decide)]

/-- `struct X { struct S { f: Y; } } struct Y { f: S; } struct S {}` -/
def inventedCycle : ParseResult where
  schemas :=
    [.ofDefinitions none [] [scope ['X'] [record ['S'] [['Y']] []], record ['Y'] [['S']] [], scope ['S'] []]
      (by decide)]

end Sample

open Sample

namespace ParseResult

theorem sort_sound_twoStructs : twoStructs.resolved.SortSound :=
  sort_sound twoStructs.resolved (linked_resolved (by decide) (forall_def (by decide)))
    (forall_def fun ref href d hd name target h =>
      (by decide : ∀ ref ∈ twoStructs.resolved.registered, ∀ d ∈ twoStructs.resolved.def? ref,
        ∀ x ∈ twoStructs.resolved.recorded ref d, twoStructs.resolved.edgeFrom ref x.1 =
          (some x.2).filter fun target => !twoStructs.resolved.isExempt ref target) ref href d hd (name, target) h)

/-- The name of a dependency leads to another definition: the order has `B` before
the `S` of its field, and a cycle is reported where there is none. -/
theorem sort_sound_fails :
    (lostDependency.Accepted (fun _ => []) ∧ lostDependency.resolved.Linked ∧ ¬lostDependency.resolved.SortSound) ∧
      inventedCycle.resolved.Linked ∧ ¬inventedCycle.resolved.SortSound := by
  refine ⟨⟨by decide, linked_resolved (by decide) (forall_def (by decide)), fun h => ?_⟩,
    linked_resolved (by decide) (forall_def (by decide)), fun h => ?_⟩
  · have horder : lostDependency.resolved.toposort =
        .sorted ([⟨0, [0, 0]⟩, ⟨0, [0]⟩, ⟨0, [3]⟩] ++ ⟨0, [1]⟩ :: [⟨0, [2]⟩]) := by decide
    have hdepends : lostDependency.resolved.DependsOn ⟨0, [1]⟩ ⟨0, [2]⟩ :=
      ⟨_, rfl, .inl ⟨⟨.field, ['S'], some ⟨0, [2]⟩⟩, by decide, rfl⟩⟩
    have hbefore := h.after _ horder _ _ _ rfl ⟨0, [2]⟩ ⟨hdepends, by decide⟩
    exact absurd hbefore (by decide)
  · obtain ⟨ref, hcycle⟩ := h.cycle ⟨0, [0, 0]⟩ "S -> Y -> S".toList (by decide)
    -- a definition comes after what it depends on in this order
    let rank (ref : DefRef) : Nat := [⟨0, [2]⟩, ⟨0, [1]⟩, ⟨0, [0, 0]⟩, ⟨0, [0]⟩].idxOf ref
    have hrank (dep ref : DefRef) (hprecedes : inventedCycle.resolved.Precedes dep ref) : rank dep < rank ref := by
      obtain ⟨⟨d, hd, hdep⟩, -⟩ := hprecedes
      have hchecked := (by decide : ∀ ref ∈ inventedCycle.resolved.registered,
        ∀ d ∈ inventedCycle.resolved.def? ref, d.ownBranches.length = 0 ∧
          ∀ r ∈ d.references, ∀ dep ∈ r.resolved, [⟨0, [2]⟩, ⟨0, [1]⟩, ⟨0, [0, 0]⟩, ⟨0, [0]⟩].idxOf dep <
            [⟨0, [2]⟩, ⟨0, [1]⟩, ⟨0, [0, 0]⟩, (⟨0, [0]⟩ : DefRef)].idxOf ref) ref
        (mem_registered.mpr ⟨d, hd⟩) d hd
      rcases hdep with ⟨r, hr, hresolved⟩ | ⟨x, hx, -⟩
      · exact hchecked.2 r hr dep hresolved
      · rw [List.length_eq_zero_iff.mp hchecked.1] at hx
        cases hx
    have hlt {ref' : DefRef} (hcycle : Relation.TransGen inventedCycle.resolved.Precedes ref ref') :
        rank ref < rank ref' := by
      induction hcycle with
      | single hstep => exact hrank _ _ hstep
      | tail _ hstep ih => exact Nat.lt_trans ih (hrank _ _ hstep)
    exact Nat.lt_irrefl _ (hlt hcycle)

end ParseResult

end Bebop.Compiler
