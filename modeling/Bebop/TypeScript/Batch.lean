import Bebop.Rpc.Batch

/-!
# Bebop — batches in TypeScript

`handleBatch` of `rpc/router.ts`, from the decoded request to the results. After the order
of the calls is found, it starts a promise for every call. What happens next, and when, is
up to the handlers: `BatchStep` has one step for each promise that goes on. There is no
interceptor, deadline or cancellation here.
-/

namespace Bebop.TypeScript.Rpc

open Bebop.Rpc
open Transition

variable {Text Payload : Type} [DecidableEq Text]

structure BatchRouter (Text Payload : Type) where
  methods : UInt32 → Option (MethodRegistration Text Payload)
  maxBatchSize : Nat
  maxBatchStreamElements : Nat

/-! ## Validation -/

/-- The inner loop of `orderBatchDependencies`. `pathIndexes` has the members of `path`, and
`visited` those of `order`. A path has at most all calls on it. -/
def followPath (calls : OrderedMap Int32 (BatchCall Payload)) (order : List Int32) (fuel : Nat)
    (path : List Int32) (id : Int32) : Option (Except RpcError (List Int32)) :=
  match fuel with
  | 0 => none
  | fuel + 1 =>
    if id ∈ order then some (.ok path)
    else if id ∈ path then some (.error ⟨.invalidArgument, "batch dependency cycle"⟩)
    else
      match calls.lookup id with
      | none => some (.error ⟨.internal, s!"batch call {id} disappeared during ordering"⟩)
      | some call =>
        if call.inputFrom < 0 then some (.ok (path ++ [id]))
        else if call.inputFrom ∈ calls then
          followPath calls order fuel (path ++ [id]) call.inputFrom
        else some (.error ⟨.invalidArgument, s!"unknown batch dependency {call.inputFrom}"⟩)

/-- The loop that appends a path to the order, last call first. -/
def appendPath (order path : List Int32) : List Int32 :=
  path.reverse.foldl (fun order value => if value ∈ order then order else order ++ [value]) order

/-- The outer loop of `orderBatchDependencies`. -/
def orderFrom (calls : OrderedMap Int32 (BatchCall Payload)) :
    List Int32 → List Int32 → Option (Except RpcError (List Int32))
  | [], order => some (.ok order)
  | start :: starts, order =>
    if start ∈ order then orderFrom calls starts order
    else
      match followPath calls order (calls.keys.length + 1) [] start with
      | none => none
      | some (.error error) => some (.error error)
      | some (.ok path) => orderFrom calls starts (appendPath order path)

def orderBatchDependencies (calls : OrderedMap Int32 (BatchCall Payload)) :
    Option (Except RpcError (List Int32)) :=
  orderFrom calls (calls.pairs.map Prod.fst) []

/-- The calls by identifier, where the last one of an identifier stays. -/
def callMap (calls : List (BatchCall Payload)) : OrderedMap Int32 (BatchCall Payload) :=
  calls.foldl (fun calls call => calls.set call.callId call) ∅

/-- The part of `handleBatch` before the first promise. -/
def validateBatch (router : BatchRouter Text Payload) (request : BatchRequest Text Payload) :
    Option (Except RpcError (OrderedMap Int32 (BatchCall Payload) × List Int32)) :=
  if request.calls.length > router.maxBatchSize then
    some (.error ⟨.resourceExhausted, "batch is too large"⟩)
  else if (callMap request.calls).keys.length ≠ request.calls.length then
    some (.error ⟨.invalidArgument, "batch call IDs must be unique"⟩)
  else
    match orderBatchDependencies (callMap request.calls) with
    | none => none
    | some (.error error) => some (.error error)
    | some (.ok executionOrder) => some (.ok (callMap request.calls, executionOrder))

/-! ## Invocations -/

/-- `invoke` with what follows up to the result of the promise. -/
def BatchRouter.invoke (router : BatchRouter Text Payload) (methodId : UInt32) (payload : Payload)
    (metadata : Metadata Text) : BatchOutcome Text Payload :=
  match router.methods methodId with
  | some (.unary invoke) =>
    match invoke payload metadata with
    | .error (error, errorMetadata) => .error error errorMetadata
    | .ok (response, responseMetadata) => .success [response] responseMetadata
  | some (.serverStream invoke) =>
    match invoke payload metadata with
    | .error (error, errorMetadata) => .error error errorMetadata
    | .ok (elements, failure, responseMetadata) =>
      match collect router.maxBatchStreamElements "batch stream has too many elements" failure
          elements [] with
      | .error (error, errorMetadata) => .error error errorMetadata
      | .ok payloads => .success payloads responseMetadata
  | some .clientStream => .error ⟨.invalidArgument, s!"method {methodId} cannot run in a batch"⟩ ∅
  | some .duplexStream => .error ⟨.invalidArgument, s!"method {methodId} cannot run in a batch"⟩ ∅
  | none => .error ⟨.invalidArgument, s!"method {methodId} cannot run in a batch"⟩ ∅

inductive Pending (Text Payload : Type) where
  | awaiting (call : BatchCall Payload)
  | invoking (call : BatchCall Payload) (payload : Payload) (metadata : Metadata Text)
  | settled (outcome : BatchOutcome Text Payload)

/-- The promises by identifier, `results` in the source. -/
abbrev BatchWorld (Text Payload : Type) := OrderedMap Int32 (Pending Text Payload)

/-- A promise runs up to its first `await`. -/
def beginCall (batchMetadata : Metadata Text) (results : BatchWorld Text Payload)
    (call : BatchCall Payload) : Pending Text Payload :=
  if call.inputFrom ≥ 0 then
    match results.lookup call.inputFrom with
    | none => .settled (.error ⟨.internal, s!"dependency {call.inputFrom} was not scheduled"⟩ ∅)
    | some _ => .awaiting call
  else .invoking call call.payload batchMetadata

def startBatch (calls : OrderedMap Int32 (BatchCall Payload)) (batchMetadata : Metadata Text) :
    List Int32 → BatchWorld Text Payload → Except RpcError (BatchWorld Text Payload)
  | [], results => .ok results
  | callId :: executionOrder, results =>
    match calls.lookup callId with
    | none => .error ⟨.internal, s!"batch call {callId} was not found"⟩
    | some call =>
      startBatch calls batchMetadata executionOrder
        (results.set callId (beginCall batchMetadata results call))

/-- `handleBatch` up to its first `await`. -/
def handleBatch (router : BatchRouter Text Payload) (parentMetadata : Metadata Text)
    (request : BatchRequest Text Payload) : Option (Except RpcError (BatchWorld Text Payload)) :=
  match validateBatch router request with
  | none => none
  | some (.error error) => some (.error error)
  | some (.ok (calls, executionOrder)) =>
    some (startBatch calls (mergeMetadata parentMetadata request.metadata) executionOrder ∅)

/-- A promise goes on with the result of the dependency. -/
def resumeCall (batchMetadata : Metadata Text) (call : BatchCall Payload)
    (dependency : BatchOutcome Text Payload) : Pending Text Payload :=
  match upstream "produced no payload" call.inputFrom dependency with
  | .error error => .settled (.error error ∅)
  | .ok (payload, upstreamMetadata) =>
    .invoking call payload (mergeMetadata batchMetadata upstreamMetadata)

inductive BatchEvent where
  | resume (callId : Int32)
  | finish (callId : Int32)
  deriving DecidableEq

/-- A promise whose dependency has its result goes on, or a handler finishes. -/
inductive BatchStep (router : BatchRouter Text Payload) (batchMetadata : Metadata Text) :
    BatchWorld Text Payload → BatchEvent → BatchWorld Text Payload → Prop
  | resume {results call outcome} (callId) : results.lookup callId = some (.awaiting call) →
      results.lookup call.inputFrom = some (.settled outcome) →
      BatchStep router batchMetadata results (.resume callId)
        (results.set callId (resumeCall batchMetadata call outcome))
  | finish {results call payload metadata} (callId) :
      results.lookup callId = some (.invoking call payload metadata) →
      BatchStep router batchMetadata results (.finish callId)
        (results.set callId (.settled (router.invoke call.methodId payload metadata)))

/-! ## The response -/

/-- The loop that collects the promises in the order of the request. -/
def pendingResults (results : BatchWorld Text Payload) :
    List (BatchCall Payload) → Except RpcError (List (Int32 × Pending Text Payload))
  | [] => .ok []
  | call :: calls =>
    match results.lookup call.callId with
    | none => .error ⟨.internal, s!"batch call {call.callId} was not scheduled"⟩
    | some pending => (pendingResults results calls).map ((call.callId, pending) :: ·)

/-- `Promise.all`. No promise rejects. -/
def awaitAll : List (Int32 × Pending Text Payload) → Option (List (BatchResult Text Payload))
  | [] => some []
  | (_, .awaiting _) :: _ => none
  | (_, .invoking _ _ _) :: _ => none
  | (callId, .settled outcome) :: pending => (awaitAll pending).map (⟨callId, outcome⟩ :: ·)

/-- What `handleBatch` returns or throws in the end, once it does. -/
def batchResponse (request : BatchRequest Text Payload) (results : BatchWorld Text Payload) :
    Option (Except RpcError (List (BatchResult Text Payload))) :=
  match pendingResults results request.calls with
  | .error error => some (.error error)
  | .ok pending => (awaitAll pending).map .ok

def Executes (router : BatchRouter Text Payload) (parentMetadata : Metadata Text)
    (request : BatchRequest Text Payload) : Prop :=
  ∃ world results callId call payload metadata,
    handleBatch router parentMetadata request = some (.ok world) ∧
      Reaches (BatchStep router (mergeMetadata parentMetadata request.metadata)) world results ∧
        results.lookup callId = some (.invoking call payload metadata)

end Bebop.TypeScript.Rpc
