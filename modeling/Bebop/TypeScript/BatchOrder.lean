import Bebop.TypeScript.Batch
import Mathlib.Data.Finset.Card

/-!
# Bebop — the execution order in TypeScript

`orderBatchDependencies` gives an order in which each call comes after the one it depends
on (`Ordered`). It fails exactly if there is none, because a call waits for one that is not
in the batch, or for itself (`validateBatch_cases`).
-/

namespace Bebop.TypeScript.Rpc

open Bebop.Rpc

variable {Text Payload : Type}

/-- The identifiers are those of calls, and each comes after its dependency. -/
inductive Ordered (calls : OrderedMap Int32 (BatchCall Payload)) : List Int32 → Prop
  | nil : Ordered calls []
  | snoc {order id call} : Ordered calls order → id ∉ order → calls.lookup id = some call →
      (0 ≤ call.inputFrom → call.inputFrom ∈ order) → Ordered calls (order ++ [id])

def Waits (calls : OrderedMap Int32 (BatchCall Payload)) (id dependency : Int32) : Prop :=
  ∃ call, calls.lookup id = some call ∧ call.inputFrom = dependency ∧ 0 ≤ dependency

def Unorderable (calls : OrderedMap Int32 (BatchCall Payload)) : Prop :=
  (∃ id dependency, Waits calls id dependency ∧ dependency ∉ calls) ∨
    ∃ id, Relation.TransGen (Waits calls) id id

variable {calls : OrderedMap Int32 (BatchCall Payload)} {order path : List Int32} {id : Int32}

/-! ## What an order gives -/

theorem Ordered.mem_calls (h : Ordered calls order) : ∀ id ∈ order, id ∈ calls := by
  induction h with
  | nil => nofun
  | snoc _ _ hlookup _ ih =>
    intro id hid
    rcases List.mem_append.mp hid with hold | hnew
    · exact ih id hold
    · rw [List.mem_singleton.mp hnew, OrderedMap.mem_iff]
      exact ⟨_, hlookup⟩

theorem Ordered.idxOf_lt (h : Ordered calls order) {dependency : Int32} (hid : id ∈ order)
    (hwaits : Waits calls id dependency) :
    dependency ∈ order ∧ order.idxOf dependency < order.idxOf id := by
  induction h with
  | nil => cases hid
  | @snoc order last call _ hnot hlookup hdependency ih =>
    by_cases hold : id ∈ order
    · obtain ⟨hmem, hlt⟩ := ih hold
      rw [List.idxOf_append_of_mem hmem, List.idxOf_append_of_mem hold]
      exact ⟨List.mem_append_left _ hmem, hlt⟩
    · obtain rfl : id = last := by
        rcases List.mem_append.mp hid with hmem | hmem
        · exact absurd hmem hold
        · exact List.mem_singleton.mp hmem
      obtain ⟨call', hlookup', rfl, hnonneg⟩ := hwaits
      obtain rfl := Option.some.inj (hlookup.symm.trans hlookup')
      have hmem := hdependency hnonneg
      rw [List.idxOf_append_of_mem hmem, List.idxOf_append_of_notMem hnot]
      exact ⟨List.mem_append_left _ hmem, Nat.lt_of_lt_of_le (List.idxOf_lt_length_of_mem hmem)
        (Nat.le_add_right _ _)⟩

theorem Ordered.orderable (h : Ordered calls order) (hall : ∀ id ∈ calls, id ∈ order) :
    ¬Unorderable calls := by
  have horder {id dependency : Int32} (hwaits : Waits calls id dependency) :
      dependency ∈ order ∧ order.idxOf dependency < order.idxOf id := by
    refine h.idxOf_lt (hall id (OrderedMap.mem_iff.mpr ?_)) hwaits
    obtain ⟨call, hlookup, -⟩ := hwaits
    exact ⟨call, hlookup⟩
  rintro (⟨id, dependency, hwaits, hunknown⟩ | ⟨id, hcycle⟩)
  · exact hunknown (h.mem_calls dependency (horder hwaits).1)
  · have hdown {a b : Int32} (hab : Relation.TransGen (Waits calls) a b) :
        order.idxOf b < order.idxOf a := by
      induction hab with
      | single hwaits => exact (horder hwaits).2
      | tail _ hwaits ih => exact Nat.lt_trans (horder hwaits).2 ih
    exact Nat.lt_irrefl _ (hdown hcycle)

/-! ## Paths -/

theorem followPath_cases (horder : Ordered calls order) (fuel : Nat) (path : List Int32)
    (hfuel : calls.keys.length < path.length + fuel) (hid : id ∈ calls) (hnodup : path.Nodup)
    (hpath : ∀ step ∈ path, step ∈ calls ∧ Relation.TransGen (Waits calls) step id) :
    (∃ rest, followPath calls order fuel path id = some (.ok (path ++ rest)) ∧
      Ordered calls (order ++ rest.reverse) ∧ id ∈ order ++ rest.reverse ∧ ∀ step ∈ rest, step ∉ path) ∨
    ∃ error, followPath calls order fuel path id = some (.error error) ∧ Unorderable calls := by
  induction fuel generalizing path id with
  | zero =>
    -- a path without repetition is not longer than the list of calls
    have hsub : path ⊆ calls.keys := fun step hstep => AList.mem_keys.mp (hpath step hstep).1
    have hle := (List.subperm_of_subset hnodup hsub).length_le
    omega
  | succ fuel ih =>
    unfold followPath
    by_cases hvisited : id ∈ order
    · rw [if_pos hvisited]
      refine .inl ⟨[], by rw [List.append_nil], ?_, ?_, nofun⟩
      · rw [List.reverse_nil, List.append_nil]
        exact horder
      · rw [List.reverse_nil, List.append_nil]
        exact hvisited
    · rw [if_neg hvisited]
      by_cases hagain : id ∈ path
      · rw [if_pos hagain]
        exact .inr ⟨_, rfl, .inr ⟨id, (hpath id hagain).2⟩⟩
      · rw [if_neg hagain]
        obtain ⟨call, hlookup⟩ := OrderedMap.mem_iff.mp hid
        rw [hlookup]
        dsimp only
        split
        · rename_i hown
          refine .inl ⟨[id], rfl, ?_, ?_, ?_⟩
          · exact horder.snoc hvisited hlookup fun h => absurd hown (Int32.not_lt.mpr h)
          · exact List.mem_append_right _ (List.mem_singleton_self id)
          · intro step hstep
            rw [List.mem_singleton.mp hstep]
            exact hagain
        · rename_i hdepends
          have hwaits : Waits calls id call.inputFrom :=
            ⟨call, hlookup, rfl, Int32.not_lt.mp hdepends⟩
          split
          · rename_i hknown
            have hpath' : ∀ step ∈ path ++ [id],
                step ∈ calls ∧ Relation.TransGen (Waits calls) step call.inputFrom := by
              intro step hstep
              rcases List.mem_append.mp hstep with hold | hnew
              · exact ⟨(hpath step hold).1, (hpath step hold).2.tail hwaits⟩
              · rw [List.mem_singleton.mp hnew]
                exact ⟨hid, .single hwaits⟩
            have hnodup' : (path ++ [id]).Nodup := by
              rw [List.nodup_append_comm]
              exact List.nodup_cons.mpr ⟨hagain, hnodup⟩
            have hfuel' : calls.keys.length < (path ++ [id]).length + fuel := by
              rw [List.length_append, List.length_singleton]
              omega
            rcases ih (path ++ [id]) hfuel' hknown hnodup' hpath' with
              ⟨rest, hcall, hordered, hreached, hnew⟩ | ⟨error, hcall, hunorderable⟩
            · refine .inl ⟨id :: rest, ?_, ?_, ?_, ?_⟩
              · rw [hcall, List.append_assoc, List.singleton_append]
              · rw [List.reverse_cons, ← List.append_assoc]
                refine hordered.snoc ?_ hlookup fun _ => hreached
                intro hmem
                rcases List.mem_append.mp hmem with hold | hrest
                · exact hvisited hold
                · exact hnew id (List.mem_reverse.mp hrest)
                    (List.mem_append_right _ (List.mem_singleton_self id))
              · rw [List.reverse_cons, ← List.append_assoc]
                exact List.mem_append_right _ (List.mem_singleton_self id)
              · intro step hstep
                rcases List.mem_cons.mp hstep with rfl | hrest
                · exact hagain
                · exact fun hmem => hnew step hrest (List.mem_append_left _ hmem)
            · exact .inr ⟨error, hcall, hunorderable⟩
          · rename_i hunknown
            exact .inr ⟨_, rfl, .inl ⟨id, call.inputFrom, hwaits, hunknown⟩⟩

theorem Ordered.of_snoc (h : Ordered calls (order ++ [id])) :
    Ordered calls order ∧ id ∉ order ∧ ∃ call, calls.lookup id = some call ∧
      (0 ≤ call.inputFrom → call.inputFrom ∈ order) := by
  generalize hlist : order ++ [id] = list at h
  cases h with
  | nil => exact absurd hlist (List.append_ne_nil_of_right_ne_nil order (List.cons_ne_nil id []))
  | snoc horder hnot hlookup hdependency =>
    obtain ⟨rfl, hlast⟩ := List.append_inj' hlist rfl
    obtain rfl := List.singleton_inj.mp hlast
    exact ⟨horder, hnot, _, hlookup, hdependency⟩

theorem Ordered.of_append {later : List Int32} (h : Ordered calls (order ++ later)) :
    Ordered calls order := by
  induction later using List.reverseRecOn with
  | nil => rwa [List.append_nil] at h
  | append_singleton later id ih =>
    rw [← List.append_assoc] at h
    exact ih h.of_snoc.1

theorem appendPath_eq (h : Ordered calls (order ++ path.reverse)) :
    appendPath order path = order ++ path.reverse := by
  unfold appendPath
  generalize path.reverse = steps at h
  induction steps using List.reverseRecOn with
  | nil => exact (List.append_nil order).symm
  | append_singleton steps id ih =>
    rw [← List.append_assoc] at h ⊢
    obtain ⟨hinit, hnot, -⟩ := h.of_snoc
    rw [List.foldl_append, ih hinit]
    exact if_neg hnot

/-! ## All calls -/

theorem orderFrom_cases (starts : List Int32) (hstarts : ∀ id ∈ starts, id ∈ calls)
    (horder : Ordered calls order) :
    (∃ order', orderFrom calls starts order = some (.ok order') ∧ Ordered calls order' ∧
      (∀ id ∈ order, id ∈ order') ∧ ∀ id ∈ starts, id ∈ order') ∨
    ∃ error, orderFrom calls starts order = some (.error error) ∧ Unorderable calls := by
  induction starts generalizing order with
  | nil => exact .inl ⟨order, rfl, horder, fun _ hid => hid, nofun⟩
  | cons start starts ih =>
    have hrest : ∀ id ∈ starts, id ∈ calls := fun id hid => hstarts id (List.mem_cons_of_mem _ hid)
    unfold orderFrom
    split
    · rename_i hvisited
      rcases ih hrest horder with ⟨order', hcall, hordered, hkept, hall⟩ | herror
      · refine .inl ⟨order', hcall, hordered, hkept, fun id hid => ?_⟩
        rcases List.mem_cons.mp hid with rfl | hid
        · exact hkept id hvisited
        · exact hall id hid
      · exact .inr herror
    · rcases followPath_cases horder (calls.keys.length + 1) []
          (by rw [List.length_nil]; omega) (hstarts start List.mem_cons_self) List.nodup_nil nofun with
        ⟨path, hcall, hordered, hreached, -⟩ | ⟨error, hcall, hunorderable⟩
      · rw [hcall, List.nil_append]
        dsimp only
        rw [appendPath_eq hordered]
        rcases ih hrest hordered with ⟨order', hcall', hordered', hkept, hall⟩ | herror
        · refine .inl ⟨order', hcall', hordered', fun id hid => ?_, fun id hid => ?_⟩
          · exact hkept id (List.mem_append_left _ hid)
          · rcases List.mem_cons.mp hid with rfl | hid
            · exact hkept id hreached
            · exact hall id hid
        · exact .inr herror
      · rw [hcall]
        exact .inr ⟨error, rfl, hunorderable⟩

theorem mem_pairs_keys : id ∈ calls.pairs.map Prod.fst ↔ id ∈ calls := by
  rw [List.mem_map, OrderedMap.mem_iff]
  constructor
  · rintro ⟨⟨_, call⟩, hmem, rfl⟩
    exact ⟨call, OrderedMap.mem_pairs.mp hmem⟩
  · rintro ⟨call, hlookup⟩
    exact ⟨(id, call), OrderedMap.mem_pairs.mpr hlookup, rfl⟩

theorem orderBatchDependencies_cases (calls : OrderedMap Int32 (BatchCall Payload)) :
    (∃ order, orderBatchDependencies calls = some (.ok order) ∧ Ordered calls order ∧
      ∀ id ∈ calls, id ∈ order) ∨
    ∃ error, orderBatchDependencies calls = some (.error error) ∧ Unorderable calls := by
  rcases orderFrom_cases (calls.pairs.map Prod.fst) (fun _ hid => mem_pairs_keys.mp hid) .nil with
    ⟨order, hcall, hordered, -, hall⟩ | herror
  · exact .inl ⟨order, hcall, hordered, fun id hid => hall id (mem_pairs_keys.mpr hid)⟩
  · exact .inr herror

theorem Ordered.nodup (h : Ordered calls order) : order.Nodup := by
  induction h with
  | nil => exact List.nodup_nil
  | snoc _ hnot _ _ ih =>
    rw [List.nodup_append_comm]
    exact List.nodup_cons.mpr ⟨hnot, ih⟩

/-- An error exactly if there is no order, else the keys in one. -/
theorem orderBatchDependencies_iff (calls : OrderedMap Int32 (BatchCall Payload)) :
    ∃ outcome, orderBatchDependencies calls = some outcome ∧
      ((∃ error, outcome = .error error) ↔ Unorderable calls) ∧
      ∀ order, outcome = .ok order → order.Perm (calls.pairs.map Prod.fst) ∧
        ∀ id dependency, Waits calls id dependency →
          dependency ∈ order ∧ order.idxOf dependency < order.idxOf id := by
  rcases orderBatchDependencies_cases calls with ⟨order, hcall, hordered, hall⟩ | ⟨error, hcall, hunorderable⟩
  · refine ⟨_, hcall, iff_of_false ?_ (hordered.orderable hall), ?_⟩
    · rintro ⟨error, herror⟩
      cases herror
    · intro order' hok
      obtain rfl := Except.ok.inj hok
      have hmem (id : Int32) : id ∈ order ↔ id ∈ calls.pairs.map Prod.fst := by
        rw [mem_pairs_keys]
        exact ⟨hordered.mem_calls id, hall id⟩
      refine ⟨(List.perm_ext_iff_of_nodup hordered.nodup calls.nodup_pairs).mpr hmem, ?_⟩
      intro id dependency hwaits
      refine hordered.idxOf_lt (hall id ?_) hwaits
      obtain ⟨call, hlookup, -⟩ := hwaits
      exact OrderedMap.mem_iff.mpr ⟨call, hlookup⟩
  · refine ⟨_, hcall, iff_of_true ⟨error, rfl⟩ hunorderable, ?_⟩
    intro order hok
    cases hok

/-! ## The map of the calls -/

section

variable {requested : List (BatchCall Payload)} {call : BatchCall Payload}

theorem lookup_foldl_set {start : OrderedMap Int32 (BatchCall Payload)}
    (h : (requested.foldl (fun calls call => calls.set call.callId call) start).lookup id = some call) :
    (call ∈ requested ∧ call.callId = id) ∨ start.lookup id = some call := by
  induction requested generalizing start with
  | nil => exact .inr h
  | cons first rest ih =>
    rcases ih h with ⟨hmem, hid⟩ | hstart
    · exact .inl ⟨List.mem_cons_of_mem _ hmem, hid⟩
    · rw [OrderedMap.lookup_set] at hstart
      split at hstart
      · rename_i hsame
        obtain rfl := Option.some.inj hstart
        exact .inl ⟨List.mem_cons_self, hsame.symm⟩
      · exact .inr hstart

theorem mem_foldl_set {start : OrderedMap Int32 (BatchCall Payload)} :
    id ∈ requested.foldl (fun calls call => calls.set call.callId call) start ↔
      id ∈ requested.map BatchCall.callId ∨ id ∈ start := by
  induction requested generalizing start with
  | nil => exact ⟨.inr, fun h => h.resolve_left nofun⟩
  | cons first rest ih =>
    have hset : id ∈ start.set first.callId first ↔ id = first.callId ∨ id ∈ start := by
      rw [OrderedMap.mem_iff, OrderedMap.lookup_set]
      by_cases hsame : id = first.callId
      · rw [if_pos hsame]
        exact ⟨fun _ => .inl hsame, fun _ => ⟨first, rfl⟩⟩
      · rw [if_neg hsame, ← OrderedMap.mem_iff]
        exact ⟨.inr, fun h => h.resolve_left hsame⟩
    rw [List.foldl_cons, ih, hset, List.map_cons, List.mem_cons]
    tauto

theorem mem_callMap : id ∈ callMap requested ↔ id ∈ requested.map BatchCall.callId :=
  mem_foldl_set.trans ⟨fun h => h.resolve_right nofun, .inl⟩

theorem lookup_callMap (hdistinct : (requested.map BatchCall.callId).Nodup) :
    (callMap requested).lookup id = some call ↔ call ∈ requested ∧ call.callId = id := by
  constructor
  · intro h
    exact (lookup_foldl_set h).resolve_right nofun
  · rintro ⟨hmem, rfl⟩
    obtain ⟨found, hfound⟩ :=
      OrderedMap.mem_iff.mp (mem_callMap.mpr (List.mem_map_of_mem (f := BatchCall.callId) hmem))
    obtain ⟨hmem', hsame⟩ := (lookup_foldl_set hfound).resolve_right nofun
    rw [hfound, callId_injective hdistinct hmem' hmem hsame]

theorem length_callMap :
    (callMap requested).keys.length = requested.length ↔ (requested.map BatchCall.callId).Nodup := by
  have hkeys := (callMap requested).keys_nodup
  have hsub : (callMap requested).keys ⊆ requested.map BatchCall.callId :=
    fun _ hid => mem_callMap.mp (AList.mem_keys.mpr hid)
  have hsup : requested.map BatchCall.callId ⊆ (callMap requested).keys :=
    fun _ hid => AList.mem_keys.mp (mem_callMap.mpr hid)
  have hsubperm := List.subperm_of_subset hkeys hsub
  rw [← requested.length_map (f := BatchCall.callId)]
  constructor
  · intro hlength
    exact (hsubperm.perm_of_length_le hlength.ge).nodup_iff.mp hkeys
  · intro hdistinct
    exact Nat.le_antisymm hsubperm.length_le (List.subperm_of_subset hdistinct hsup).length_le

theorem waits_callMap (hdistinct : (requested.map BatchCall.callId).Nodup) :
    Waits (callMap requested) = DependsOn requested := by
  funext id dependency
  refine propext ⟨?_, ?_⟩
  · rintro ⟨call, hlookup, hfrom, hnonneg⟩
    obtain ⟨hmem, hid⟩ := (lookup_callMap hdistinct).mp hlookup
    exact ⟨call, hmem, hid, hfrom, hnonneg⟩
  · rintro ⟨call, hmem, hid, hfrom, hnonneg⟩
    exact ⟨call, (lookup_callMap hdistinct).mpr ⟨hmem, hid⟩, hfrom, hnonneg⟩

theorem orderable_callMap (hdistinct : (requested.map BatchCall.callId).Nodup) :
    ¬Unorderable (callMap requested) ↔ Closed requested ∧ Acyclic requested := by
  unfold Unorderable Acyclic
  rw [waits_callMap hdistinct, not_or]
  refine and_congr ⟨?_, ?_⟩ not_exists
  · intro h call hmem hdepends
    by_contra hunknown
    exact h ⟨call.callId, call.inputFrom, ⟨call, hmem, rfl, rfl, hdepends⟩,
      fun hin => hunknown (mem_callMap.mp hin)⟩
  · rintro hclosed ⟨id, dependency, ⟨call, hmem, -, rfl, hnonneg⟩, hunknown⟩
    exact hunknown (mem_callMap.mpr (hclosed call hmem hnonneg))

end

theorem validateBatch_cases (router : BatchRouter Text Payload) (request : BatchRequest Text Payload)
    (hsize : request.calls.length ≤ router.maxBatchSize) :
    ((request.calls.map BatchCall.callId).Nodup ∧ Closed request.calls ∧ Acyclic request.calls ∧
      ∃ order, validateBatch router request = some (.ok (callMap request.calls, order)) ∧
        Ordered (callMap request.calls) order ∧ ∀ id ∈ callMap request.calls, id ∈ order) ∨
    (¬((request.calls.map BatchCall.callId).Nodup ∧ Closed request.calls ∧ Acyclic request.calls) ∧
      ∃ error, validateBatch router request = some (.error error)) := by
  unfold validateBatch
  rw [if_neg (Nat.not_lt.mpr hsize)]
  by_cases hdistinct : (request.calls.map BatchCall.callId).Nodup
  · rw [if_neg (not_not.mpr (length_callMap.mpr hdistinct))]
    rcases orderBatchDependencies_cases (callMap request.calls) with
      ⟨order, hcall, hordered, hall⟩ | ⟨error, hcall, hunorderable⟩
    · obtain ⟨hclosed, hacyclic⟩ := (orderable_callMap hdistinct).mp (hordered.orderable hall)
      rw [hcall]
      exact .inl ⟨hdistinct, hclosed, hacyclic, order, rfl, hordered, hall⟩
    · rw [hcall]
      refine .inr ⟨fun hgood => ?_, error, rfl⟩
      exact (orderable_callMap hdistinct).mpr hgood.2 hunorderable
  · rw [if_pos fun hlength => hdistinct (length_callMap.mp hlength)]
    exact .inr ⟨fun hgood => hdistinct hgood.1, _, rfl⟩

end Bebop.TypeScript.Rpc
