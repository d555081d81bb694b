import Bebop.Swift.BatchLayers

/-!
# Bebop — runs of a batch in Swift

Whatever the order in which the tasks of the layers finish, the response of a batch is what
the calls evaluate to, in the order of the request (`handleBatch_confluent`). When a layer
runs, the outcomes of the layers above it are there (`BatchSound`).
-/

namespace Bebop.Swift.Rpc

open Bebop.Rpc
open Transition

variable {Text Payload : Type} [DecidableEq Text]

/-- What a call evaluates to with the handlers of the router. -/
abbrev BatchRouter.Evaluates (router : BatchRouter Text Payload) (calls : List (BatchCall Payload))
    (batchMetadata : Metadata Text) : BatchCall Payload → BatchOutcome Text Payload → Prop :=
  Bebop.Rpc.Evaluates router.invoke "has no payload" calls batchMetadata

/-- All outcomes are what a call of their identifier evaluates to. -/
def OutcomesOk (router : BatchRouter Text Payload) (calls : List (BatchCall Payload))
    (batchMetadata : Metadata Text) (outcomes : OrderedMap Int32 (BatchOutcome Text Payload)) : Prop :=
  ∀ id outcome, outcomes.lookup id = some outcome →
    ∃ call ∈ calls, call.callId = id ∧ router.Evaluates calls batchMetadata call outcome

def Covers (calls : List (BatchCall Payload)) (state : LayerState)
    (outcomes : OrderedMap Int32 (BatchOutcome Text Payload)) (level : Nat) : Prop :=
  ∀ call ∈ calls, ∀ depth < level, state.callDepth.lookup call.callId = some depth →
    call.callId ∈ outcomes

/-- The world between two layers, and while one runs. -/
inductive BatchSound (router : BatchRouter Text Payload) (calls : List (BatchCall Payload))
    (batchMetadata : Metadata Text) (state : LayerState) : BatchWorld Text Payload → Prop
  | between {outcomes} (level : Nat) : OutcomesOk router calls batchMetadata outcomes →
      Covers calls state outcomes level →
      BatchSound router calls batchMetadata state ⟨outcomes, none, state.layers.drop level⟩
  | within {outcomes layerResults} {waiting : List Nat} (level : Nat) :
      OutcomesOk router calls batchMetadata outcomes → Covers calls state outcomes level →
      OutcomesOk router calls batchMetadata layerResults →
      (∀ index ∈ waiting, index ∈ state.layers[level]?.getD []) →
      (∀ index ∈ state.layers[level]?.getD [], ∀ call, calls[index]? = some call →
        index ∈ waiting ∨ call.callId ∈ layerResults) →
      BatchSound router calls batchMetadata state
        ⟨outcomes, some (waiting, layerResults), state.layers.drop (level + 1)⟩

/-- How many steps are left: every task, and two for every layer. -/
def stepsLeft (world : BatchWorld Text Payload) : Nat :=
  (world.layers.map fun layer => layer.length + 2).sum +
    match world.running with
    | none => 0
    | some (waiting, _) => waiting.length + 1

variable {router : BatchRouter Text Payload} {calls : List (BatchCall Payload)}
  {batchMetadata : Metadata Text} {state : LayerState} {world world' : BatchWorld Text Payload}
  {outcomes outcomes' : OrderedMap Int32 (BatchOutcome Text Payload)} {call : BatchCall Payload}
  {event : BatchEvent}

/-! ## Outcomes -/

theorem outcomesOk_empty : OutcomesOk router calls batchMetadata ∅ := fun _ _ h => nomatch h

theorem OutcomesOk.set (h : OutcomesOk router calls batchMetadata outcomes) (hmem : call ∈ calls)
    {outcome : BatchOutcome Text Payload} (heval : router.Evaluates calls batchMetadata call outcome) :
    OutcomesOk router calls batchMetadata (outcomes.set call.callId outcome) := by
  intro id outcome' hlookup
  rw [OrderedMap.lookup_set] at hlookup
  split at hlookup
  · rename_i hsame
    obtain rfl := Option.some.inj hlookup
    exact ⟨call, hmem, hsame.symm, heval⟩
  · exact h id outcome' hlookup

theorem OutcomesOk.merge (h : OutcomesOk router calls batchMetadata outcomes)
    (h' : OutcomesOk router calls batchMetadata outcomes') :
    OutcomesOk router calls batchMetadata (outcomes.merge outcomes') := by
  intro id outcome hlookup
  rw [OrderedMap.lookup_merge, Option.or_eq_some_iff] at hlookup
  rcases hlookup with hnew | ⟨-, hold⟩
  · exact h' id outcome hnew
  · exact h id outcome hold

omit [DecidableEq Text] in
theorem mem_merge {id : Int32} (h : id ∈ outcomes ∨ id ∈ outcomes') : id ∈ outcomes.merge outcomes' := by
  rw [OrderedMap.mem_iff, ← Option.isSome_iff_exists, OrderedMap.lookup_merge, Option.isSome_or,
    Bool.or_eq_true]
  rcases h with hold | hnew
  · exact .inr (AList.lookup_isSome.mpr hold)
  · exact .inl (AList.lookup_isSome.mpr hnew)

theorem executeBatchCall_evaluates (hstate : LayersOk calls state)
    (hok : OutcomesOk router calls batchMetadata outcomes) {level : Nat}
    (hcovers : Covers calls state outcomes level) (hmem : call ∈ calls)
    (hdepth : state.callDepth.lookup call.callId = some level) :
    router.Evaluates calls batchMetadata call (executeBatchCall router call outcomes batchMetadata) := by
  unfold executeBatchCall
  by_cases hdepends : hasDependency call
  · rw [if_pos hdepends]
    obtain ⟨depth, hself, hdependency⟩ := hstate.dependency call hmem hdepends
    obtain rfl : depth + 1 = level := Option.some.inj (hself.symm.trans hdepth)
    obtain ⟨dependency, hin, hnames⟩ := List.mem_map.mp
      ((hstate.depth _).mp (OrderedMap.mem_iff.mpr ⟨depth, hdependency⟩))
    rw [← hnames] at hdependency
    obtain ⟨outcome, houtcome⟩ := OrderedMap.mem_iff.mp
      (hcovers dependency hin depth (Nat.lt_succ_self depth) hdependency)
    rw [hnames] at houtcome
    obtain ⟨dependency', hin', hnames', heval⟩ := hok _ outcome houtcome
    have hresult := Evaluates.of_upstream (hasDependency_iff.mp hdepends) hin' hnames' heval
    rw [houtcome]
    dsimp only
    cases hup : upstream "has no payload" call.inputFrom outcome with
    | error error =>
      rw [hup] at hresult
      exact hresult
    | ok found =>
      rw [hup] at hresult
      exact hresult
  · rw [if_neg hdepends]
    exact .own fun hd => hdepends (hasDependency_iff.mpr hd)

/-! ## Steps -/

theorem layer_eq {layers layers' : List (List Nat)} {layer : List Nat} {level : Nat}
    (h : layers.drop level = layer :: layers') :
    layers[level]?.getD [] = layer ∧ layers.drop (level + 1) = layers' := by
  constructor
  · have hhead : (layers.drop level)[0]? = layers[level + 0]? := List.getElem?_drop
    rw [h, Nat.add_zero] at hhead
    rw [← hhead]
    rfl
  · rw [← List.drop_drop, h]
    rfl

theorem batch_step (hstate : LayersOk calls state)
    (h : BatchSound router calls batchMetadata state world)
    (hstep : BatchStep router calls batchMetadata world event world') :
    BatchSound router calls batchMetadata state world' ∧ stepsLeft world' < stepsLeft world := by
  cases hstep with
  | @layer outcomes layer layers =>
    generalize hlayers : layer :: layers = remaining at h
    cases h with
    | between level hok hcovers =>
      obtain ⟨hlayer, hrest⟩ := layer_eq hlayers.symm
      rw [← hrest]
      refine ⟨.within level hok hcovers outcomesOk_empty (fun index hindex => ?_)
        fun index hindex _ _ => .inl ?_, ?_⟩
      · rwa [hlayer]
      · rwa [hlayer] at hindex
      · unfold stepsLeft
        dsimp only
        rw [hrest, ← hlayers, List.map_cons, List.sum_cons]
        omega
  | @finish outcomes layers layerResults call before after index hcall =>
    generalize hwaiting : before ++ index :: after = waiting at h
    cases h with
    | within level hok hcovers hresults hsub hall =>
      subst hwaiting
      have hin : index ∈ state.layers[level]?.getD [] :=
        hsub index (List.mem_append_right _ List.mem_cons_self)
      obtain ⟨found, hfound, hdepth⟩ := (hstate.member level index).mp hin
      obtain rfl := Option.some.inj (hcall.symm.trans hfound)
      have hmem : call ∈ calls := List.mem_of_getElem? hcall
      refine ⟨.within level hok hcovers
        (hresults.set hmem (executeBatchCall_evaluates hstate hok hcovers hmem hdepth))
        (fun index' hindex' => ?_) fun index' hindex' call' hcall' => ?_, ?_⟩
      · refine hsub index' ?_
        rcases List.mem_append.mp hindex' with hleft | hright
        · exact List.mem_append_left _ hleft
        · exact List.mem_append_right _ (List.mem_cons_of_mem _ hright)
      · -- the task that has finished has its result among those of the layer
        have hset (id : Int32) (hid : id ∈ layerResults ∨ id = call.callId) :
            id ∈ layerResults.set call.callId
              (executeBatchCall router call outcomes batchMetadata) := by
          rw [OrderedMap.mem_iff, OrderedMap.lookup_set]
          split
          · exact ⟨_, rfl⟩
          · rename_i hne
            exact OrderedMap.mem_iff.mp (hid.resolve_right hne)
        rcases hall index' hindex' call' hcall' with hwait | hdone
        · rcases List.mem_append.mp hwait with hleft | hright
          · exact .inl (List.mem_append_left _ hleft)
          · rcases List.mem_cons.mp hright with rfl | hright
            · obtain rfl := Option.some.inj (hcall.symm.trans hcall')
              exact .inr (hset _ (.inr rfl))
            · exact .inl (List.mem_append_right _ hright)
        · exact .inr (hset _ (.inl hdone))
      · unfold stepsLeft
        dsimp only
        rw [List.length_append, List.length_append, List.length_cons]
        omega
  | @merge outcomes layers layerResults =>
    generalize hwaiting : ([] : List Nat) = waiting at h
    cases h with
    | within level hok hcovers hresults hsub hall =>
      subst hwaiting
      refine ⟨.between (level + 1) (hok.merge hresults) fun call hmem depth hlt hdepth => ?_, ?_⟩
      · rcases Nat.lt_succ_iff_lt_or_eq.mp hlt with habove | rfl
        · exact mem_merge (.inl (hcovers call hmem depth habove hdepth))
        · obtain ⟨index, hindex⟩ := List.mem_iff_getElem?.mp hmem
          have hin := (hstate.member depth index).mpr ⟨call, hindex, hdepth⟩
          exact mem_merge (.inr ((hall index hin call hindex).resolve_left List.not_mem_nil))
      · unfold stepsLeft
        dsimp only
        exact Nat.lt_succ_self _

theorem batch_progress (hstate : LayersOk calls state)
    (h : BatchSound router calls batchMetadata state world) {request : BatchRequest Text Payload}
    (hopen : ¬(batchResponse request world).isSome) :
    ∃ event world', BatchStep router calls batchMetadata world event world' := by
  cases h with
  | between level hok hcovers =>
    cases hlayers : state.layers.drop level with
    | nil =>
      rw [hlayers] at hopen
      exact absurd rfl hopen
    | cons layer layers => exact ⟨_, _, .layer layer layers⟩
  | @within outcomes layerResults waiting level hok hcovers hresults hsub hall =>
    cases waiting with
    | nil => exact ⟨_, _, .merge layerResults⟩
    | cons index waiting =>
      obtain ⟨call, hcall, -⟩ := (hstate.member level index).mp (hsub index List.mem_cons_self)
      exact ⟨_, _, .finish [] waiting index hcall⟩

/-! ## The response -/

theorem batchResults_evaluates (hdistinct : (calls.map BatchCall.callId).Nodup)
    (hok : OutcomesOk router calls batchMetadata outcomes)
    (hall : ∀ call ∈ calls, call.callId ∈ outcomes) {rest : List (BatchCall Payload)}
    (hsub : ∀ call ∈ rest, call ∈ calls) :
    ∃ answers, batchResults outcomes rest = .ok answers ∧ List.Forall₂ (fun call answer =>
      answer.callId = call.callId ∧ ∀ outcome,
        router.Evaluates calls batchMetadata call outcome ↔ outcome = answer.outcome)
          rest answers := by
  induction rest with
  | nil => exact ⟨[], rfl, .nil⟩
  | cons call rest ih =>
    have hmem := hsub call List.mem_cons_self
    obtain ⟨answers, hanswers, hevaluates⟩ := ih fun call' hcall' =>
      hsub call' (List.mem_cons_of_mem _ hcall')
    obtain ⟨outcome, houtcome⟩ := OrderedMap.mem_iff.mp (hall call hmem)
    obtain ⟨call', hmem', hsame, heval⟩ := hok _ outcome houtcome
    obtain rfl := callId_injective hdistinct hmem' hmem hsame
    refine ⟨⟨call'.callId, outcome⟩ :: answers, ?_,
      .cons ⟨rfl, fun _ => heval.eq_iff hdistinct⟩ hevaluates⟩
    rw [batchResults, houtcome]
    dsimp only
    rw [hanswers]
    rfl

omit [DecidableEq Text] in
theorem covers_all (hstate : LayersOk calls state) {level : Nat} (hlayers : state.layers.drop level = [])
    (hcovers : Covers calls state outcomes level) : ∀ call ∈ calls, call.callId ∈ outcomes := by
  intro call hmem
  obtain ⟨depth, hdepth⟩ := OrderedMap.mem_iff.mp ((hstate.depth _).mpr (List.mem_map_of_mem hmem))
  refine hcovers call hmem depth ?_ hdepth
  obtain ⟨index, hindex⟩ := List.mem_iff_getElem?.mp hmem
  have hin := (hstate.member depth index).mpr ⟨call, hindex, hdepth⟩
  have hbound : depth < state.layers.length := by
    by_contra hbeyond
    rw [List.getElem?_eq_none (Nat.not_lt.mp hbeyond)] at hin
    cases hin
  exact Nat.lt_of_lt_of_le hbound (List.drop_eq_nil_iff.mp hlayers)

omit [DecidableEq Text] in
theorem handleBatch_cases {request : BatchRequest Text Payload}
    (hstart : handleBatch router request = .ok world) :
    ∃ state : LayerState, buildExecutionLayers request.calls = .ok state.layers ∧
      WellFormed request.calls ∧ LayersOk request.calls state ∧ world = ⟨∅, none, state.layers⟩ := by
  rcases buildExecutionLayers_cases request.calls with ⟨hgood, state, hlayers, hstate⟩ | ⟨-, error, hlayers⟩
  · refine ⟨state, hlayers, hgood.1, hstate, ?_⟩
    unfold handleBatch at hstart
    split at hstart
    · rename_i hempty
      rw [List.isEmpty_iff.mp hempty] at hlayers
      obtain rfl := Except.ok.inj hstart
      have hnone : state.layers = [] := (Except.ok.inj hlayers).symm
      rw [hnone]
    · split at hstart
      · cases hstart
      · rw [hlayers] at hstart
        exact (Except.ok.inj hstart).symm
  · unfold handleBatch at hstart
    split at hstart
    · rename_i hempty
      rw [List.isEmpty_iff.mp hempty] at hlayers
      cases hlayers
    · split at hstart
      · cases hstart
      · rw [hlayers] at hstart
        cases hstart

theorem handleBatch_confluent {request : BatchRequest Text Payload}
    (hstart : handleBatch router request = .ok world) (batchMetadata : Metadata Text) :
    Confluent (BatchStep router request.calls batchMetadata) (batchResponse request)
      (router.Evaluates request.calls batchMetadata) request.calls world := by
  obtain ⟨state, -, hwell, hstate, rfl⟩ := handleBatch_cases hstart
  have hsound : BatchSound router request.calls batchMetadata state ⟨∅, none, state.layers⟩ :=
    .between 0 outcomesOk_empty fun _ _ _ hlt => absurd hlt (Nat.not_lt_zero _)
  refine ⟨Inevitable.of_measure (I := BatchSound router request.calls batchMetadata state) stepsLeft
    (fun _ _ _ h hstep => batch_step hstate h hstep)
    (fun _ h hopen => batch_progress hstate h hopen) hsound, ?_⟩
  rintro later ⟨events, hrun⟩ answer hanswer
  have h := hrun.invariant (I := BatchSound router request.calls batchMetadata state)
    (fun _ _ _ h hstep => (batch_step hstate h hstep).1) hsound
  cases h with
  | between level hok hcovers =>
    cases hlayers : state.layers.drop level with
    | nil =>
      rw [hlayers] at hanswer
      obtain ⟨answers, hanswers, hevaluates⟩ := batchResults_evaluates hwell.distinct hok
        (covers_all hstate hlayers hcovers) fun _ hmem => hmem
      rw [← Option.some.inj hanswer]
      exact ⟨answers, hanswers, hevaluates⟩
    | cons layer layers =>
      rw [hlayers] at hanswer
      cases hanswer
  | within level _ _ _ _ _ => cases hanswer

end Bebop.Swift.Rpc
