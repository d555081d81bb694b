import Bebop.Rpc.Batch
import Mathlib.Data.Finset.Basic

/-!
# Bebop — batches in Swift

`handleBatch` of `BebopRouter+Batch.swift`, from the decoded request to the results. The
layers of its calls (`buildExecutionLayers`) run one after the other. The tasks of a layer
run at once, all on the outcomes of the layers before, and finish in any order: `BatchStep`
has a step for each that does. There is no interceptor, deadline or cancellation here.
-/

namespace Bebop.Swift.Rpc

open Bebop.Rpc
open Transition

variable {Text Payload : Type} [DecidableEq Text]

structure BatchRouter (Text Payload : Type) where
  methods : UInt32 → Option (MethodRegistration Text Payload)
  maxBatchSize : Nat
  maxBatchStreamElements : Nat

/-- `-1` means own payload, no dependency. -/
def hasDependency (call : BatchCall Payload) : Bool := call.inputFrom ≥ 0

/-! ## Validation -/

structure LayerState where
  seenIds : Finset Int32
  callDepth : OrderedMap Int32 Nat
  layers : List (List Nat)

def depthOf (callDepth : OrderedMap Int32 Nat) (call : BatchCall Payload) : Except RpcError Nat :=
  if hasDependency call then
    match if call.inputFrom < call.callId then callDepth.lookup call.inputFrom else none with
    | none => .error ⟨.invalidArgument,
        s!"call {call.callId} references invalid input_from {call.inputFrom}"⟩
    | some dependencyDepth => .ok (dependencyDepth + 1)
  else .ok 0

/-- Layers are added until there is one at `depth`, which the call joins. -/
def addToLayer (layers : List (List Nat)) (depth index : Nat) : List (List Nat) :=
  (layers ++ List.replicate (depth + 1 - layers.length) []).modify depth (· ++ [index])

/-- The body of the loop of `buildExecutionLayers`. -/
def addCall (state : LayerState) (index : Nat) (call : BatchCall Payload) : Except RpcError LayerState :=
  if ¬call.callId ≥ 0 then .error ⟨.invalidArgument, "batch call_id must be >= 0"⟩
  else if call.callId ∈ state.seenIds then
    .error ⟨.invalidArgument, s!"duplicate call_id {call.callId}"⟩
  else
    match depthOf state.callDepth call with
    | .error error => .error error
    | .ok depth =>
      .ok
        { seenIds := insert call.callId state.seenIds
          callDepth := state.callDepth.set call.callId depth
          layers := addToLayer state.layers depth index }

def addCalls : List (BatchCall Payload) → Nat → LayerState → Except RpcError LayerState
  | [], _, state => .ok state
  | call :: calls, index, state =>
    match addCall state index call with
    | .error error => .error error
    | .ok state => addCalls calls (index + 1) state

def buildExecutionLayers (calls : List (BatchCall Payload)) : Except RpcError (List (List Nat)) :=
  (addCalls calls 0 ⟨∅, ∅, []⟩).map LayerState.layers

/-! ## One call -/

variable (router : BatchRouter Text Payload)

/-- The part of `executeBatchCall` that invokes the method. -/
def BatchRouter.invoke (methodId : UInt32) (payload : Payload)
    (metadata : Metadata Text) : BatchOutcome Text Payload :=
  match router.methods methodId with
  | none => .error ⟨.notFound, s!"method {methodId}"⟩ ∅
  | some (.unary dispatch) =>
    match dispatch payload metadata with
    | .error (error, errorMetadata) => .error error errorMetadata
    | .ok (result, responseMetadata) => .success [result] responseMetadata
  | some (.serverStream dispatch) =>
    match dispatch payload metadata with
    | .error (error, errorMetadata) => .error error errorMetadata
    | .ok (elements, failure, responseMetadata) =>
      match collect router.maxBatchStreamElements "batch stream too large" failure elements [] with
      | .error (error, errorMetadata) => .error error errorMetadata
      | .ok payloads => .success payloads responseMetadata
  | some .clientStream => .error ⟨.invalidArgument, "batch does not support 2 methods"⟩ ∅
  | some .duplexStream => .error ⟨.invalidArgument, "batch does not support 3 methods"⟩ ∅

def executeBatchCall (call : BatchCall Payload)
    (outcomes : OrderedMap Int32 (BatchOutcome Text Payload)) (batchMetadata : Metadata Text) :
    BatchOutcome Text Payload :=
  if hasDependency call then
    match outcomes.lookup call.inputFrom with
    | none => .error ⟨.invalidArgument, s!"dependency {call.inputFrom} not resolved"⟩ ∅
    | some outcome =>
      match upstream "has no payload" call.inputFrom outcome with
      | .error error => .error error ∅
      | .ok (payload, upstreamMeta) =>
        router.invoke call.methodId payload (mergeMetadata batchMetadata upstreamMeta)
  else router.invoke call.methodId call.payload (mergeMetadata batchMetadata ∅)

/-! ## The layers -/

/-- A layer that runs has tasks that are not finished and results of the others. -/
structure BatchWorld (Text Payload : Type) where
  outcomes : OrderedMap Int32 (BatchOutcome Text Payload)
  running : Option (List Nat × OrderedMap Int32 (BatchOutcome Text Payload))
  layers : List (List Nat)

/-- `handleBatch` up to the first layer. -/
def handleBatch (request : BatchRequest Text Payload) : Except RpcError (BatchWorld Text Payload) :=
  if request.calls.isEmpty then .ok ⟨∅, none, []⟩
  else if ¬request.calls.length ≤ router.maxBatchSize then
    .error ⟨.resourceExhausted, "batch too large"⟩
  else (buildExecutionLayers request.calls).map fun layers => ⟨∅, none, layers⟩

inductive BatchEvent where
  | layer
  | finish (index : Nat)
  | merge
  deriving DecidableEq

/-- A layer starts, one of its tasks finishes, or its results are merged. -/
inductive BatchStep (router : BatchRouter Text Payload) (calls : List (BatchCall Payload))
    (batchMetadata : Metadata Text) :
    BatchWorld Text Payload → BatchEvent → BatchWorld Text Payload → Prop
  | layer {outcomes} (layer layers) :
      BatchStep router calls batchMetadata ⟨outcomes, none, layer :: layers⟩ .layer
        ⟨outcomes, some (layer, ∅), layers⟩
  | finish {outcomes layers layerResults call} (before after : List Nat) (index) :
      calls[index]? = some call →
      BatchStep router calls batchMetadata
        ⟨outcomes, some (before ++ index :: after, layerResults), layers⟩ (.finish index)
        ⟨outcomes, some (before ++ after,
          layerResults.set call.callId (executeBatchCall router call outcomes batchMetadata)), layers⟩
  | merge {outcomes layers} (layerResults) :
      BatchStep router calls batchMetadata ⟨outcomes, some ([], layerResults), layers⟩ .merge
        ⟨outcomes.merge layerResults, none, layers⟩

/-! ## The response -/

/-- The loop that collects the outcomes in the order of the request. -/
def batchResults (outcomes : OrderedMap Int32 (BatchOutcome Text Payload)) :
    List (BatchCall Payload) → Except RpcError (List (BatchResult Text Payload))
  | [] => .ok []
  | call :: calls =>
    match outcomes.lookup call.callId with
    | none => .error ⟨.internal, s!"batch execution did not produce outcome for call {call.callId}"⟩
    | some outcome => (batchResults outcomes calls).map (⟨call.callId, outcome⟩ :: ·)

/-- What `handleBatch` returns or throws once all layers have run. -/
def batchResponse (request : BatchRequest Text Payload) (world : BatchWorld Text Payload) :
    Option (Except RpcError (List (BatchResult Text Payload))) :=
  match world.running, world.layers with
  | none, [] => some (batchResults world.outcomes request.calls)
  | _, _ => none

def Executes (parentMetadata : Metadata Text) (request : BatchRequest Text Payload) : Prop :=
  ∃ world outcomes index waiting layerResults layers,
    handleBatch router request = .ok world ∧
      Reaches (BatchStep router request.calls (mergeMetadata parentMetadata request.metadata)) world
        ⟨outcomes, some (index :: waiting, layerResults), layers⟩

end Bebop.Swift.Rpc
