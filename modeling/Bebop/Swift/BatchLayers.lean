import Bebop.Swift.Batch
import Mathlib.Data.List.Nodup

/-!
# Bebop — execution layers in Swift

`buildExecutionLayers` accepts the well-formed lists all of whose calls name a
smaller identifier than their own (`buildExecutionLayers_cases`). What it makes
of one is that a call that depends on another is in the layer below it
(`LayersOk`).
-/

namespace Bebop.Swift.Rpc

open Bebop.Rpc

variable {Payload : Type}

structure LayersOk (before : List (BatchCall Payload)) (state : LayerState) : Prop where
  seen : ∀ id, id ∈ state.seenIds ↔ id ∈ before.map BatchCall.callId
  depth : ∀ id, id ∈ state.callDepth ↔ id ∈ before.map BatchCall.callId
  member : ∀ depth index, index ∈ state.layers[depth]?.getD [] ↔
    ∃ call, before[index]? = some call ∧ state.callDepth.lookup call.callId = some depth
  dependency : ∀ call ∈ before, hasDependency call → ∃ depth,
    state.callDepth.lookup call.callId = some (depth + 1) ∧
      state.callDepth.lookup call.inputFrom = some depth

structure Accepts (before : List (BatchCall Payload)) (call : BatchCall Payload) : Prop where
  nonnegative : 0 ≤ call.callId
  fresh : call.callId ∉ before.map BatchCall.callId
  smaller : hasDependency call → call.inputFrom < call.callId
  earlier : hasDependency call → call.inputFrom ∈ before.map BatchCall.callId

def AcceptsAll : List (BatchCall Payload) → List (BatchCall Payload) → Prop
  | _, [] => True
  | before, call :: calls => Accepts before call ∧ AcceptsAll (before ++ [call]) calls

variable {before calls : List (BatchCall Payload)} {call : BatchCall Payload} {state : LayerState}

/-! ## One call -/

theorem mem_addToLayer (layers : List (List Nat)) (depth index depth' index' : Nat) :
    index' ∈ (addToLayer layers depth index)[depth']?.getD [] ↔
      index' ∈ layers[depth']?.getD [] ∨ (depth' = depth ∧ index' = index) := by
  -- the layers that are added are empty
  have hpadded (n : Nat) : (layers ++ List.replicate n [])[depth']?.getD [] = layers[depth']?.getD [] := by
    rw [List.getElem?_append]
    split
    · rfl
    · rename_i hbeyond
      rw [List.getElem?_replicate, List.getElem?_eq_none (Nat.not_lt.mp hbeyond)]
      split <;> rfl
  unfold addToLayer
  rw [List.getElem?_modify, Option.map_eq_map]
  split
  · rename_i hsame
    subst hsame
    have hin : depth < (layers ++ List.replicate (depth + 1 - layers.length) []).length := by
      rw [List.length_append, List.length_replicate]
      omega
    have hlayer := hpadded (depth + 1 - layers.length)
    rw [List.getElem?_eq_getElem hin] at hlayer ⊢
    rw [Option.getD_some] at hlayer
    rw [Option.map_some, Option.getD_some, hlayer, List.mem_append, List.mem_singleton]
    tauto
  · rename_i hne
    rw [Option.map_id', hpadded]
    tauto

theorem lookup_callDepth_of_fresh (h : LayersOk before state) (hfresh : call.callId ∉ before.map BatchCall.callId)
    {id : Int32} {depth depth' : Nat} (hlookup : state.callDepth.lookup id = some depth) :
    (state.callDepth.set call.callId depth').lookup id = some depth := by
  rw [OrderedMap.lookup_set, if_neg, hlookup]
  rintro rfl
  exact hfresh ((h.depth _).mp (OrderedMap.mem_iff.mpr ⟨depth, hlookup⟩))

theorem depthOf_cases (call : BatchCall Payload) (h : LayersOk before state) :
    ((hasDependency call → call.inputFrom < call.callId ∧ call.inputFrom ∈ before.map BatchCall.callId) ∧
      ∃ depth, depthOf state.callDepth call = .ok depth ∧
        (hasDependency call → ∃ dependencyDepth, depth = dependencyDepth + 1 ∧
          state.callDepth.lookup call.inputFrom = some dependencyDepth)) ∨
    (¬(hasDependency call → call.inputFrom < call.callId ∧ call.inputFrom ∈ before.map BatchCall.callId) ∧
      ∃ error, depthOf state.callDepth call = .error error) := by
  unfold depthOf
  by_cases hdepends : hasDependency call
  · rw [if_pos hdepends]
    by_cases hsmaller : call.inputFrom < call.callId
    · rw [if_pos hsmaller]
      cases hlookup : state.callDepth.lookup call.inputFrom with
      | none =>
        refine .inr ⟨fun hgood => ?_, _, rfl⟩
        obtain ⟨depth, hdepth⟩ := OrderedMap.mem_iff.mp ((h.depth _).mpr (hgood hdepends).2)
        rw [hlookup] at hdepth
        cases hdepth
      | some depth =>
        have hmem := (h.depth _).mp (OrderedMap.mem_iff.mpr ⟨depth, hlookup⟩)
        exact .inl ⟨fun _ => ⟨hsmaller, hmem⟩, depth + 1, rfl, fun _ => ⟨depth, rfl, rfl⟩⟩
    · rw [if_neg hsmaller]
      exact .inr ⟨fun hgood => hsmaller (hgood hdepends).1, _, rfl⟩
  · rw [if_neg hdepends]
    exact .inl ⟨fun hd => absurd hd hdepends, 0, rfl, fun hd => absurd hd hdepends⟩

theorem addCall_cases (call : BatchCall Payload) (h : LayersOk before state) :
    (Accepts before call ∧
      ∃ state', addCall state before.length call = .ok state' ∧ LayersOk (before ++ [call]) state') ∨
    (¬Accepts before call ∧ ∃ error, addCall state before.length call = .error error) := by
  unfold addCall
  by_cases hnonneg : call.callId ≥ 0
  · rw [if_neg (not_not.mpr hnonneg)]
    by_cases hseen : call.callId ∈ state.seenIds
    · rw [if_pos hseen]
      exact .inr ⟨fun hgood => hgood.fresh ((h.seen _).mp hseen), _, rfl⟩
    · rw [if_neg hseen]
      have hfresh : call.callId ∉ before.map BatchCall.callId := fun hmem => hseen ((h.seen _).mpr hmem)
      rcases depthOf_cases call h with ⟨hgood, depth, hdepth, hbelow⟩ | ⟨hbad, error, hdepth⟩
      · rw [hdepth]
        refine .inl ⟨⟨hnonneg, hfresh, fun hd => (hgood hd).1, fun hd => (hgood hd).2⟩, _, rfl, ?_⟩
        have hcall : (state.callDepth.set call.callId depth).lookup call.callId = some depth := by
          rw [OrderedMap.lookup_set, if_pos rfl]
        have hkeep {id : Int32} {depth' : Nat} (hlookup : state.callDepth.lookup id = some depth') :
            (state.callDepth.set call.callId depth).lookup id = some depth' :=
          lookup_callDepth_of_fresh h hfresh hlookup
        refine ⟨fun id => ?_, fun id => ?_, fun depth' index => ?_, fun call' hmem hdepends => ?_⟩
        · rw [Finset.mem_insert, h.seen, List.map_append, List.mem_append, or_comm]
          exact or_congr Iff.rfl List.mem_singleton.symm
        · rw [OrderedMap.mem_iff, OrderedMap.lookup_set, List.map_append, List.mem_append, ← h.depth,
            OrderedMap.mem_iff]
          by_cases hsame : id = call.callId
          · rw [if_pos hsame]
            exact ⟨fun _ => .inr (List.mem_singleton.mpr hsame), fun _ => ⟨depth, rfl⟩⟩
          · rw [if_neg hsame]
            exact ⟨.inl, fun hor => hor.resolve_right fun hin => hsame (List.mem_singleton.mp hin)⟩
        · rw [mem_addToLayer, h.member]
          constructor
          · rintro (⟨call', hindex, hlookup⟩ | ⟨rfl, rfl⟩)
            · refine ⟨call', ?_, hkeep hlookup⟩
              rw [List.getElem?_append_left (List.getElem?_eq_some_iff.mp hindex).1, hindex]
            · exact ⟨call, List.getElem?_concat_length, hcall⟩
          · rintro ⟨call', hindex, hlookup⟩
            rw [List.getElem?_append] at hindex
            split at hindex
            · refine .inl ⟨call', hindex, ?_⟩
              have hold : call'.callId ∈ before.map BatchCall.callId :=
                List.mem_map_of_mem (List.mem_of_getElem? hindex)
              obtain ⟨depth'', hdepth''⟩ := OrderedMap.mem_iff.mp ((h.depth _).mpr hold)
              rw [hdepth'', ← hlookup, hkeep hdepth'']
            · rename_i hbeyond
              obtain ⟨hlt, rfl⟩ := List.getElem?_eq_some_iff.mp hindex
              rw [List.length_singleton] at hlt
              obtain rfl : index = before.length := by omega
              rw [List.getElem_singleton, hcall] at hlookup
              exact .inr ⟨(Option.some.inj hlookup).symm, rfl⟩
        · rcases List.mem_append.mp hmem with hold | hnew
          · obtain ⟨depth', hself, hdependency⟩ := h.dependency call' hold hdepends
            exact ⟨depth', hkeep hself, hkeep hdependency⟩
          · obtain rfl := List.mem_singleton.mp hnew
            obtain ⟨dependencyDepth, rfl, hdependency⟩ := hbelow hdepends
            exact ⟨dependencyDepth, hcall, hkeep hdependency⟩
      · rw [hdepth]
        exact .inr ⟨fun hgood => hbad fun hd => ⟨hgood.smaller hd, hgood.earlier hd⟩, error, rfl⟩
  · rw [if_pos hnonneg]
    exact .inr ⟨fun hgood => hnonneg hgood.nonnegative, _, rfl⟩

/-! ## All calls -/

theorem addCalls_cases (calls : List (BatchCall Payload)) (h : LayersOk before state) :
    (AcceptsAll before calls ∧
      ∃ state', addCalls calls before.length state = .ok state' ∧ LayersOk (before ++ calls) state') ∨
    (¬AcceptsAll before calls ∧ ∃ error, addCalls calls before.length state = .error error) := by
  induction calls generalizing before state with
  | nil => exact .inl ⟨trivial, state, rfl, by rwa [List.append_nil]⟩
  | cons call calls ih =>
    unfold addCalls
    rcases addCall_cases call h with ⟨hgood, state', hcall, hstate'⟩ | ⟨hbad, error, hcall⟩
    · rw [hcall]
      dsimp only
      have hlength : before.length + 1 = (before ++ [call]).length := by
        rw [List.length_append, List.length_singleton]
      rw [hlength]
      rcases ih hstate' with ⟨hrest, state'', hcalls, hstate''⟩ | ⟨hrest, error, hcalls⟩
      · refine .inl ⟨⟨hgood, hrest⟩, state'', hcalls, ?_⟩
        rwa [List.append_assoc, List.singleton_append] at hstate''
      · exact .inr ⟨fun hall => hrest hall.2, error, hcalls⟩
    · rw [hcall]
      exact .inr ⟨fun hall => hbad hall.1, error, rfl⟩

theorem layersOk_nil : LayersOk ([] : List (BatchCall Payload)) ⟨∅, ∅, []⟩ where
  seen _ := ⟨nofun, nofun⟩
  depth _ := ⟨nofun, nofun⟩
  member _ _ := ⟨nofun, fun ⟨_, hindex, _⟩ => nomatch hindex⟩
  dependency _ hmem := nomatch hmem

/-- Every call names a smaller identifier than its own. -/
def NamesSmaller (calls : List (BatchCall Payload)) : Prop :=
  ∀ call ∈ calls, 0 ≤ call.inputFrom → call.inputFrom < call.callId

theorem hasDependency_iff : hasDependency call = true ↔ 0 ≤ call.inputFrom := decide_eq_true_iff

theorem acceptsAll_iff : AcceptsAll before calls ↔
    (∀ call ∈ calls, 0 ≤ call.callId) ∧ (calls.map BatchCall.callId).Nodup ∧
      (∀ call ∈ calls, call.callId ∉ before.map BatchCall.callId) ∧ NamesSmaller calls ∧
      ∀ first call rest, calls = first ++ call :: rest → NamesEarlier (before ++ first) call := by
  induction calls generalizing before with
  | nil =>
    refine ⟨fun _ => ⟨nofun, List.nodup_nil, nofun, nofun, fun first call rest h => ?_⟩, fun _ => trivial⟩
    exact absurd h.symm (List.append_ne_nil_of_right_ne_nil first (List.cons_ne_nil call rest))
  | cons call calls ih =>
    unfold AcceptsAll
    rw [ih, List.map_cons, List.nodup_cons]
    constructor
    · rintro ⟨hgood, hnonneg, hnodup, hfresh, hsmaller, hearlier⟩
      refine ⟨?_, ⟨?_, hnodup⟩, ?_, ?_, ?_⟩
      · exact List.forall_mem_cons.mpr ⟨hgood.nonnegative, hnonneg⟩
      · intro hagain
        obtain ⟨call', hmem, hsame⟩ := List.mem_map.mp hagain
        refine hfresh call' hmem ?_
        rw [hsame, List.map_append]
        exact List.mem_append_right _ (List.mem_singleton_self _)
      · refine List.forall_mem_cons.mpr ⟨hgood.fresh, fun call' hmem hin => hfresh call' hmem ?_⟩
        rw [List.map_append]
        exact List.mem_append_left _ hin
      · exact List.forall_mem_cons.mpr ⟨fun hd => hgood.smaller (hasDependency_iff.mpr hd), hsmaller⟩
      · intro first call' rest hsplit
        cases first with
        | nil =>
          obtain ⟨rfl, rfl⟩ := List.cons.inj hsplit
          rw [List.append_nil]
          exact fun hd => hgood.earlier (hasDependency_iff.mpr hd)
        | cons head first =>
          obtain ⟨rfl, rfl⟩ := List.cons.inj hsplit
          have hrest := hearlier first call' rest rfl
          rwa [List.append_assoc, List.singleton_append] at hrest
    · rintro ⟨hnonneg, ⟨hnew, hnodup⟩, hfresh, hsmaller, hearlier⟩
      have hfirst := hearlier [] call calls rfl
      rw [List.append_nil] at hfirst
      refine ⟨⟨?_, ?_, ?_, ?_⟩, ?_, hnodup, ?_, ?_, ?_⟩
      · exact hnonneg call List.mem_cons_self
      · exact hfresh call List.mem_cons_self
      · exact fun hd => hsmaller call List.mem_cons_self (hasDependency_iff.mp hd)
      · exact fun hd => hfirst (hasDependency_iff.mp hd)
      · exact fun call' hmem => hnonneg call' (List.mem_cons_of_mem _ hmem)
      · intro call' hmem hin
        rw [List.map_append] at hin
        rcases List.mem_append.mp hin with hold | hlast
        · exact hfresh call' (List.mem_cons_of_mem _ hmem) hold
        · rw [← List.mem_singleton.mp hlast] at hnew
          exact hnew (List.mem_map_of_mem hmem)
      · exact fun call' hmem => hsmaller call' (List.mem_cons_of_mem _ hmem)
      · intro first call' rest hsplit
        rw [List.append_assoc, List.singleton_append]
        exact hearlier (call :: first) call' rest (by rw [hsplit, List.cons_append])

theorem buildExecutionLayers_cases (calls : List (BatchCall Payload)) :
    ((WellFormed calls ∧ NamesSmaller calls) ∧ ∃ state : LayerState,
      buildExecutionLayers calls = .ok state.layers ∧ LayersOk calls state) ∨
    (¬(WellFormed calls ∧ NamesSmaller calls) ∧ ∃ error, buildExecutionLayers calls = .error error) := by
  have haccepts : AcceptsAll [] calls ↔ WellFormed calls ∧ NamesSmaller calls := by
    rw [acceptsAll_iff]
    constructor
    · rintro ⟨hnonneg, hnodup, -, hsmaller, hearlier⟩
      exact ⟨⟨hnonneg, hnodup, hearlier⟩, hsmaller⟩
    · rintro ⟨⟨hnonneg, hnodup, hearlier⟩, hsmaller⟩
      exact ⟨hnonneg, hnodup, fun _ _ => List.not_mem_nil, hsmaller, hearlier⟩
  unfold buildExecutionLayers
  rw [← haccepts]
  rcases addCalls_cases calls layersOk_nil with ⟨hgood, state, hcalls, hstate⟩ | ⟨hbad, error, hcalls⟩
  · rw [List.length_nil] at hcalls
    rw [hcalls]
    exact .inl ⟨hgood, state, rfl, hstate⟩
  · rw [List.length_nil] at hcalls
    rw [hcalls]
    exact .inr ⟨hbad, error, rfl⟩

end Bebop.Swift.Rpc
